import Nget.Lib.KeyedVector
import Nget.Theorems.Parts

/-! The parts of a file as a finite map from part numbers: whatever is done to the vector, from the empty one
    on, is done to the map, and `part` and `haspart` read the map. -/

namespace Nget
namespace NntpFileParts
open KeyedVector
variable {parts : List NntpPart} {partnum : Int32} {p : NntpPart} {m m' : Int32 → Option NntpPart}

/-- What the program does to the parts of a file. -/
inductive Op where
  | addpart (p : NntpPart)
  | removepart (partnum : Int32)
  | erase (position : Nat)

/-- An operation on the vector. To erase at a position that it does not have is undefined. -/
def apply (parts : List NntpPart) : Op → Option (List NntpPart)
  | .addpart p => some (addpart parts p)
  | .removepart partnum => some (removepart parts partnum)
  | .erase position => if position < parts.length then some (parts.eraseIdx position) else none

def run (parts : List NntpPart) : List Op → Option (List NntpPart)
  | [] => some parts
  | op :: ops => (apply parts op).bind fun parts => run parts ops

/-- The same operation on a finite map: a part goes to a free number, and the part at a position is the one
    that has as many live numbers below its own. -/
inductive MapStep (m : Int32 → Option NntpPart) : Op → (Int32 → Option NntpPart) → Prop where
  | addpart (p : NntpPart) : m p.partnum = none → MapStep m (.addpart p) (Function.update m p.partnum (some p))
  | removepart (partnum : Int32) : MapStep m (.removepart partnum) (Function.update m partnum none)
  | erase (partnum : Int32) : (m partnum).isSome →
      MapStep m (.erase (below m partnum).ncard) (Function.update m partnum none)

inductive MapRun : (Int32 → Option NntpPart) → List Op → (Int32 → Option NntpPart) → Prop where
  | nil (m : Int32 → Option NntpPart) : MapRun m [] m
  | cons {m m' m'' : Int32 → Option NntpPart} {op : Op} {ops : List Op} :
      MapStep m op m' → MapRun m' ops m'' → MapRun m (op :: ops) m''

/-! ### The search -/

/-- The loop of `lower_bound` with a number of rounds: it gives nothing when they do not suffice, or when it
    looks at a part that is not there. -/
def lowerBoundRounds (parts : List NntpPart) (partnum : Int32) : Nat → Nat → Nat → Option Nat
  | 0, _, _ => none
  | rounds + 1, first, len =>
    if 0 < len then
      (parts[first + len / 2]?).bind fun middle =>
        if middle.partnum < partnum then lowerBoundRounds parts partnum rounds (first + len / 2 + 1) (len - len / 2 - 1)
        else lowerBoundRounds parts partnum rounds first (len / 2)
    else some first

/-- Each round at least halves `len`, so it ends in fewer rounds than there are parts, plus one. -/
theorem lowerBoundRounds_eq : ∀ rounds fuel first len, len < rounds → len ≤ fuel → first + len ≤ parts.length →
    lowerBoundRounds parts partnum rounds first len = some (lowerBoundLoop parts partnum fuel first len)
  | rounds + 1, fuel, first, len, hrounds, hfuel, hlen => by
    unfold lowerBoundRounds
    rcases Nat.eq_zero_or_pos len with rfl | hpos
    · cases fuel <;> rfl
    · obtain ⟨fuel, rfl⟩ := Nat.exists_eq_succ_of_ne_zero (show fuel ≠ 0 by omega)
      have hmid : parts[first + len / 2]? = some parts[first + len / 2] := List.getElem?_eq_getElem (by omega)
      rw [if_pos hpos, hmid, Option.bind_some]
      unfold lowerBoundLoop
      rw [if_pos hpos]
      dsimp only
      rw [hmid]
      dsimp only
      split
      · exact lowerBoundRounds_eq rounds fuel _ _ (by omega) (by omega) (by omega)
      · exact lowerBoundRounds_eq rounds fuel _ _ (by omega) (by omega) (by omega)

/-! ### One operation -/

theorem part_eq_of_represents (h : Represents NntpPart.partnum parts m) : part parts partnum = m partnum := by
  ext p
  rw [part_eq_some_iff h.sorted, h.entry]

theorem haspart_eq : haspart parts partnum = (part parts partnum).isSome := by
  unfold haspart part
  cases parts[lowerBound parts partnum]? with
  | none => rfl
  | some p =>
    dsimp only
    by_cases hnum : p.partnum = partnum
    · simp [hnum]
    · simp [hnum]

theorem represents_addpart (h : Represents NntpPart.partnum parts m) (hnew : m p.partnum = none) :
    Represents NntpPart.partnum (addpart parts p) (Function.update m p.partnum (some p)) :=
  h.insert (addpart_perm (Increasing.ascending h.sorted)) (increasing_addpart h.sorted (h.eq_none_iff.mp hnew)) hnew

theorem represents_removepart (h : Represents NntpPart.partnum parts m) :
    Represents NntpPart.partnum (removepart parts partnum) (Function.update m partnum none) := by
  unfold removepart
  cases hpart : part parts partnum with
  | none =>
    rw [part_eq_of_represents h] at hpart
    rwa [Function.update_eq_self_iff.mpr hpart.symm]
  | some p =>
    obtain ⟨hat, rfl⟩ := part_eq_some hpart
    obtain ⟨hlt, hget⟩ := List.getElem?_eq_some_iff.mp hat
    have herase := h.eraseIdx hlt
    rwa [hget] at herase

/-- The vector follows every step of the map. -/
theorem apply_represents (h : Represents NntpPart.partnum parts m) {op : Op} (hstep : MapStep m op m') :
    ∃ parts', apply parts op = some parts' ∧ Represents NntpPart.partnum parts' m' := by
  cases hstep with
  | addpart p hnew => exact ⟨_, rfl, represents_addpart h hnew⟩
  | removepart partnum => exact ⟨_, rfl, represents_removepart h⟩
  | erase partnum hlive =>
    obtain ⟨p, hp⟩ := Option.isSome_iff_exists.mp hlive
    obtain ⟨-, rfl⟩ := (h.entry partnum p).mp hp
    obtain ⟨hlt, hget⟩ := h.getElem_ncard_below hp
    have herase := h.eraseIdx hlt
    rw [hget] at herase
    exact ⟨_, if_pos hlt, herase⟩

/-! ### A whole run -/

theorem run_represents (h : Represents NntpPart.partnum parts m) {ops : List Op} (hrun : MapRun m ops m') :
    ∃ parts', run parts ops = some parts' ∧ Represents NntpPart.partnum parts' m' := by
  induction hrun generalizing parts with
  | nil m => exact ⟨parts, rfl, h⟩
  | cons hstep hrest ih =>
    obtain ⟨parts', happly, h'⟩ := apply_represents h hstep
    obtain ⟨parts'', hrun, h''⟩ := ih h'
    exact ⟨parts'', by rw [run, happly, Option.bind_some, hrun], h''⟩

/-- From the empty vector on, whatever may be done to a finite map can be done to the vector, which then
    holds the entries of the map in ascending order; `part` and `haspart` read the map, and `lower_bound`
    ends and finds where a number stands or would stand. -/
theorem run_map {ops : List Op} (hrun : MapRun (fun _ => none) ops m) :
    ∃ parts, run [] ops = some parts ∧ Increasing parts ∧ (∀ p, p ∈ parts ↔ m p.partnum = some p) ∧
      ∀ partnum, part parts partnum = m partnum ∧ haspart parts partnum = (m partnum).isSome ∧
        Splits parts partnum (lowerBound parts partnum) ∧
        ∀ rounds, parts.length < rounds →
          lowerBoundRounds parts partnum rounds 0 parts.length = some (lowerBound parts partnum) := by
  obtain ⟨parts, hparts, h⟩ := run_represents represents_nil hrun
  refine ⟨parts, hparts, h.sorted, fun p => ?_, fun partnum => ⟨part_eq_of_represents h, ?_, ?_, ?_⟩⟩
  · rw [h.entry]
    simp
  · rw [haspart_eq, part_eq_of_represents h]
  · exact lowerBound_splits (Increasing.ascending h.sorted)
  · intro rounds hrounds
    exact lowerBoundRounds_eq rounds parts.length 0 parts.length hrounds le_rfl (by omega)

/-- Three parts that come out of order, of which the middle one is erased and the last one removed. -/
theorem run_map_three :
    ∃ parts, run [] [.addpart ⟨7, [], 0, []⟩, .addpart ⟨-2, [], 0, []⟩, .addpart ⟨3, [], 0, []⟩, .erase 1,
        .removepart 7, .removepart 4] = some parts ∧ Increasing parts ∧ part parts 3 = none ∧ haspart parts (-2) = true := by
  let m : Int32 → Option NntpPart := Function.update (Function.update (Function.update (fun _ => none)
    7 (some ⟨7, [], 0, []⟩)) (-2) (some ⟨-2, [], 0, []⟩)) 3 (some ⟨3, [], 0, []⟩)
  have hbelow : below m 3 = {-2} := by
    ext k
    rw [below, Set.mem_ofPred_eq, Set.mem_singleton_iff]
    constructor
    · rintro ⟨hlt, hsome⟩
      by_contra hne
      have h7 : k ≠ 7 := fun heq => absurd (heq ▸ hlt) (by decide)
      simp [m, hlt.ne, hne, h7] at hsome
    · rintro rfl
      exact ⟨by decide, by decide⟩
  have hstep : MapStep m (.erase (below m 3).ncard) (Function.update m 3 none) := MapStep.erase 3 rfl
  rw [hbelow, Set.ncard_singleton] at hstep
  have hrun : MapRun (fun _ => none) [.addpart ⟨7, [], 0, []⟩, .addpart ⟨-2, [], 0, []⟩, .addpart ⟨3, [], 0, []⟩,
      .erase 1, .removepart 7, .removepart 4] _ :=
    .cons (.addpart ⟨7, [], 0, []⟩ rfl) <| .cons (.addpart ⟨-2, [], 0, []⟩ (by decide)) <|
      .cons (.addpart ⟨3, [], 0, []⟩ (by decide)) <| .cons hstep <| .cons (.removepart 7) <|
      .cons (.removepart 4) (.nil _)
  obtain ⟨parts, hparts, hinc, -, hread⟩ := run_map hrun
  refine ⟨parts, hparts, hinc, (hread 3).1.trans (by decide), (hread (-2)).2.1.trans (by decide)⟩

end NntpFileParts
end Nget
