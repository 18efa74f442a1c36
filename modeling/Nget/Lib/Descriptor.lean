import Mathlib.Data.List.Basic

/-! A file that is read through a descriptor. A read gives a piece of what it is asked for, as long as the system likes,
    and nothing only at the end; reading until a length is got does not depend on the pieces. -/

structure Descriptor (α : Type) where
  bytes : List α
  pos : Nat := 0
  /-- How many reads there were. -/
  reads : Nat := 0

namespace Descriptor
variable {α : Type} {cuts : Nat → Nat} {d : Descriptor α}

/-- What is left to be read. -/
def rest (d : Descriptor α) : List α := d.bytes.drop d.pos

/-- `lseek(fd, pos, SEEK_SET)`. -/
def seek (pos : Nat) (d : Descriptor α) : Descriptor α := { d with pos }

@[simp] theorem seek_bytes {pos : Nat} : (d.seek pos).bytes = d.bytes := rfl

@[simp] theorem seek_rest {pos : Nat} : (d.seek pos).rest = d.bytes.drop pos := rfl

/-- `read(fd, buf, len)`, where `cuts` says how many bytes there are for each read. -/
def read (cuts : Nat → Nat) (len : Nat) (d : Descriptor α) : List α × Descriptor α :=
  let data := d.rest.take (min (max 1 (cuts d.reads)) len)
  (data, { d with pos := d.pos + data.length, reads := d.reads + 1 })

/-- Reads until `len` bytes are got; there is no value where the file ends before. Each read gives a byte, so `len`
    rounds are enough. -/
def readExactly (cuts : Nat → Nat) : Nat → Nat → Descriptor α → Option (List α) × Descriptor α
  | _, 0, d => (some [], d)
  | 0, _ + 1, d => (none, d)
  | rounds + 1, len + 1, d =>
    let (data, d) := d.read cuts (len + 1)
    if data.isEmpty then (none, d)
    else
      let (more, d) := readExactly cuts rounds (len + 1 - data.length) d
      (more.map (data ++ ·), d)

/-- What a read of `len` bytes gives and leaves. -/
structure Gives (d : Descriptor α) (len : Nat) (r : List α × Descriptor α) : Prop where
  bytes : r.2.bytes = d.bytes
  pos : r.2.pos = d.pos + r.1.length
  rest : d.rest = r.1 ++ r.2.rest
  le : r.1.length ≤ len
  some : 0 < len → r.1 = [] → d.rest = []

theorem read_gives (len : Nat) : d.Gives len (d.read cuts len) := by
  unfold read
  generalize hn : min (max 1 (cuts d.reads)) len = n
  refine ⟨rfl, rfl, ?_, ?_, fun hlen h => ?_⟩
  · change d.rest = d.rest.take n ++ d.bytes.drop (d.pos + (d.rest.take n).length)
    have hdrop : d.bytes.drop (d.pos + (d.rest.take n).length) = d.rest.drop n := by
      rw [← List.drop_drop, List.length_take]
      rcases Nat.le_total n d.rest.length with h | h
      · rw [Nat.min_eq_left h]
        rfl
      · rw [Nat.min_eq_right h, List.drop_of_length_le h, rest, List.drop_length]
    rw [hdrop, List.take_append_drop]
  · exact Nat.le_trans (List.length_take_le _ _) (by omega)
  · rcases List.take_eq_nil_iff.mp h with h | h
    · omega
    · exact h

theorem Gives.rest_length {len : Nat} {r : List α × Descriptor α} (h : d.Gives len r) :
    d.rest.length = r.1.length + r.2.rest.length := by
  rw [h.rest, List.length_append]

/-- Reading until a length is got gives the next bytes of the file, whatever the pieces. -/
theorem readExactly_of_le : ∀ (rounds len : Nat) {d : Descriptor α}, len ≤ rounds → len ≤ d.rest.length →
    (readExactly cuts rounds len d).1 = some (d.rest.take len) ∧ (readExactly cuts rounds len d).2.bytes = d.bytes ∧
      (readExactly cuts rounds len d).2.pos = d.pos + len
  | _, 0, d, _, _ => by simp [readExactly]
  | 0, len + 1, d, h, _ => absurd h (Nat.not_succ_le_zero len)
  | rounds + 1, len + 1, d, h, hrest => by
    unfold readExactly
    have hread := @read_gives _ cuts d (len + 1)
    generalize d.read cuts (len + 1) = r at hread ⊢
    obtain ⟨data, e⟩ := r
    have hlength := hread.rest_length
    obtain ⟨hbytes, hpos, happ, hle, hsome⟩ := hread
    dsimp only at *
    have hne : data ≠ [] := fun hnil => by
      rw [hsome (Nat.succ_pos len) hnil] at hrest
      exact Nat.not_succ_le_zero len hrest
    have hdata := List.length_pos_iff.mpr hne
    obtain ⟨hgot, hbytes', hpos'⟩ := @readExactly_of_le rounds (len + 1 - data.length) e (by omega) (by omega)
    rw [if_neg (by simpa using hne), hgot]
    refine ⟨?_, hbytes'.trans hbytes, hpos'.trans (by omega)⟩
    rw [happ, List.take_append, List.take_of_length_le hle]
    rfl

theorem readExactly_of_lt : ∀ (rounds len : Nat) {d : Descriptor α}, d.rest.length < len →
    (readExactly cuts rounds len d).1 = none
  | _, 0, d, h => absurd h (Nat.not_lt_zero _)
  | 0, len + 1, d, _ => rfl
  | rounds + 1, len + 1, d, h => by
    unfold readExactly
    have hread := @read_gives _ cuts d (len + 1)
    generalize d.read cuts (len + 1) = r at hread ⊢
    obtain ⟨data, e⟩ := r
    have hlength := hread.rest_length
    dsimp only at *
    split
    · rfl
    · rw [readExactly_of_lt rounds (len + 1 - data.length) (by omega)]
      rfl

end Descriptor
