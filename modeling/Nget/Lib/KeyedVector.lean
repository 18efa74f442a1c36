import Mathlib
import Nget.Lib.SortedList

/-! A vector in strictly ascending order of a key, as a finite map from the keys: which elements it holds
    says what the map is, and the position of an element is the number of keys below its own. -/

namespace KeyedVector
variable {α κ : Type} [LinearOrder κ]

/-- The vector `l` holds the entries of the map `m`, in ascending order of their keys. -/
structure Represents (key : α → κ) (l : List α) (m : κ → Option α) : Prop where
  sorted : l.Pairwise fun a b => key a < key b
  entry : ∀ k a, m k = some a ↔ a ∈ l ∧ key a = k

variable {key : α → κ} {l : List α} {m : κ → Option α} {a : α} {i : Nat}

theorem represents_nil : Represents key [] fun _ => none := ⟨List.Pairwise.nil, by simp⟩

/-- The keys of the map below `k`. -/
def below (m : κ → Option α) (k : κ) : Set κ := {j | j < k ∧ (m j).isSome}

namespace Represents

theorem nodup_keys (h : Represents key l m) : (l.map key).Nodup :=
  List.pairwise_map.mpr (h.sorted.imp fun hab => hab.ne)

theorem eq_none_iff (h : Represents key l m) {k : κ} : m k = none ↔ ∀ a ∈ l, key a ≠ k := by
  rw [Option.eq_none_iff_forall_not_mem]
  constructor
  · intro hnone a ha hk
    exact hnone a ((h.entry k a).mpr ⟨ha, hk⟩)
  · intro hnot a ha
    exact hnot a ((h.entry k a).mp ha).1 ((h.entry k a).mp ha).2

/-- A new key is added with its element. -/
theorem insert (h : Represents key l m) {l' : List α} (hperm : l'.Perm (a :: l))
    (hsorted : l'.Pairwise fun a b => key a < key b) (hnew : m (key a) = none) :
    Represents key l' (Function.update m (key a) (some a)) := by
  refine ⟨hsorted, fun k b => ?_⟩
  rw [hperm.mem_iff, List.mem_cons]
  rcases eq_or_ne k (key a) with rfl | hk
  · rw [Function.update_self, Option.some_inj]
    constructor
    · rintro rfl
      exact ⟨Or.inl rfl, rfl⟩
    · rintro ⟨rfl | hb, hkey⟩
      · rfl
      · exact absurd hkey (h.eq_none_iff.mp hnew b hb)
  · rw [Function.update_of_ne hk, h.entry]
    constructor
    · exact fun hb => ⟨Or.inr hb.1, hb.2⟩
    · rintro ⟨rfl | hb, rfl⟩
      · exact absurd rfl hk
      · exact ⟨hb, rfl⟩

/-- The element at a position goes with its key; the others stay. -/
theorem eraseIdx (h : Represents key l m) (hi : i < l.length) :
    Represents key (l.eraseIdx i) (Function.update m (key l[i]) none) := by
  have hnodup : l.Nodup := h.sorted.imp fun hab heq => absurd (congrArg key heq) hab.ne
  refine ⟨h.sorted.sublist (List.eraseIdx_sublist l i), fun k b => ?_⟩
  have hmem : b ∈ l.eraseIdx i ↔ b ≠ l[i] ∧ b ∈ l := by
    classical
    rw [← hnodup.erase_getElem i hi, hnodup.mem_erase_iff]
  rw [hmem]
  rcases eq_or_ne k (key l[i]) with rfl | hk
  · rw [Function.update_self]
    constructor
    · exact fun hb => absurd hb (by simp)
    · exact fun ⟨⟨hne, hb⟩, hkey⟩ => absurd (SortedList.eq_of_key h.sorted hb (List.getElem_mem hi) hkey) hne
  · rw [Function.update_of_ne hk, h.entry]
    constructor
    · rintro ⟨hb, rfl⟩
      exact ⟨⟨fun heq => hk (congrArg key heq), hb⟩, rfl⟩
    · exact fun ⟨⟨_, hb⟩, hkey⟩ => ⟨hb, hkey⟩

/-- The keys below that of the element at position `i` are those of the elements before it. -/
theorem below_eq (h : Represents key l m) (hi : i < l.length) : below m (key l[i]) = ↑((l.take i).map key).toFinset := by
  ext k
  rw [List.coe_toFinset, below, Set.mem_ofPred_eq, Set.mem_ofPred_eq, List.mem_map]
  constructor
  · rintro ⟨hlt, hsome⟩
    obtain ⟨b, hb⟩ := Option.isSome_iff_exists.mp hsome
    obtain ⟨hmem, rfl⟩ := (h.entry k b).mp hb
    obtain ⟨j, hj, rfl⟩ := List.mem_iff_getElem.mp hmem
    have hji : j < i := by
      by_contra hle
      rcases (not_lt.mp hle).lt_or_eq with hij | rfl
      · exact absurd hlt (lt_asymm (List.pairwise_iff_getElem.mp h.sorted i j hi hj hij))
      · exact lt_irrefl _ hlt
    exact ⟨l[j], List.mem_take_iff_getElem.mpr ⟨j, by omega, rfl⟩, rfl⟩
  · rintro ⟨b, hb, rfl⟩
    obtain ⟨j, hj, rfl⟩ := List.mem_take_iff_getElem.mp hb
    refine ⟨List.pairwise_iff_getElem.mp h.sorted j i (by omega) hi (by omega), ?_⟩
    rw [(h.entry _ l[j]).mpr ⟨List.getElem_mem _, rfl⟩]
    rfl

/-- As many keys lie below that of an element as elements stand before it. -/
theorem ncard_below (h : Represents key l m) (hi : i < l.length) : (below m (key l[i])).ncard = i := by
  have hnodup : ((l.take i).map key).Nodup := h.nodup_keys.sublist ((List.take_sublist i l).map key)
  rw [h.below_eq hi, Set.ncard_coe_finset, List.toFinset_card_of_nodup hnodup, List.length_map,
    List.length_take_of_le hi.le]

/-- The position of a key is the number of keys below it. -/
theorem getElem_ncard_below (h : Represents key l m) (ha : m (key a) = some a) :
    ∃ hi : (below m (key a)).ncard < l.length, l[(below m (key a)).ncard] = a := by
  obtain ⟨hmem, -⟩ := (h.entry _ a).mp ha
  obtain ⟨i, hi, rfl⟩ := List.mem_iff_getElem.mp hmem
  simp only [h.ncard_below hi]
  exact ⟨hi, trivial⟩

end Represents
end KeyedVector
