import Mathlib

/-! The directories of a file system without links: sequences of names, closed under taking the parent. A walk
    follows names one by one, and comes through exactly when all that it passes are directories. -/

/-- Directories by their names from the root on. -/
structure DirTree (ν : Type) where
  dirs : List (List ν)
  root_mem : [] ∈ dirs
  parent_mem : ∀ p c, p ++ [c] ∈ dirs → p ∈ dirs

namespace DirTree
variable {ν : Type} {t : DirTree ν} {p q : List ν} {c : ν}

theorem mem_of_append (t : DirTree ν) (h : p ++ q ∈ t.dirs) : p ∈ t.dirs := by
  induction q using List.reverseRecOn with
  | nil => rwa [List.append_nil] at h
  | append_singleton q c ih =>
    rw [← List.append_assoc] at h
    exact ih (t.parent_mem _ _ h)

section
variable [DecidableEq ν]

/-- The tree has the directory. -/
def has (t : DirTree ν) (p : List ν) : Bool := p ∈ t.dirs

theorem has_iff : t.has p = true ↔ p ∈ t.dirs := decide_eq_true_iff

/-- The tree with a directory `c` in `p`, when `p` is one. -/
def add (t : DirTree ν) (p : List ν) (c : ν) : DirTree ν :=
  if hp : p ∈ t.dirs then
    { dirs := t.dirs ++ [p ++ [c]]
      root_mem := List.mem_append_left _ t.root_mem
      parent_mem := fun q d h => by
        rcases List.mem_append.mp h with h | h
        · exact List.mem_append_left _ (t.parent_mem q d h)
        · obtain ⟨rfl, -⟩ := List.append_inj' (List.mem_singleton.mp h) rfl
          exact List.mem_append_left _ hp }
  else t

theorem add_dirs (hp : p ∈ t.dirs) : (t.add p c).dirs = t.dirs ++ [p ++ [c]] := by
  unfold add
  rw [dif_pos hp]

/-- From the directory `p` on, each name leads to a directory there. -/
def walk (t : DirTree ν) (p : List ν) : List ν → Option (List ν)
  | [] => some p
  | c :: cs => if t.has (p ++ [c]) then walk t (p ++ [c]) cs else none

theorem walk_eq : ∀ {p q : List ν}, p ∈ t.dirs → t.walk p q = if t.has (p ++ q) then some (p ++ q) else none
  | p, [], hp => by rw [walk, List.append_nil, if_pos (has_iff.mpr hp)]
  | p, c :: cs, _ => by
    have happ : p ++ [c] ++ cs = p ++ c :: cs := List.append_cons p c cs |>.symm
    unfold walk
    split
    · next hc => rw [walk_eq (has_iff.mp hc), happ]
    · next hc =>
      rw [if_neg]
      exact fun h => hc (has_iff.mpr (t.mem_of_append (happ ▸ has_iff.mp h)))

/-- The directories that the walk passes, from `p` on. -/
def passed (p q : List ν) : List (List ν) := q.inits.tail.map (p ++ ·)

omit [DecidableEq ν] in
theorem passed_append : passed p (q ++ [c]) = passed p q ++ [p ++ q ++ [c]] := by
  have hinits : (q ++ [c]).inits = q.inits ++ [q ++ [c]] := by simp [List.inits_append]
  have htail : (q ++ [c]).inits.tail = q.inits.tail ++ [q ++ [c]] := by
    rw [hinits, List.tail_append_of_ne_nil (List.ne_nil_of_length_pos (by simp))]
  unfold passed
  rw [htail, List.map_append, List.map_singleton, List.append_assoc]

/-- Those of them that are missing. -/
def missing (t : DirTree ν) (p q : List ν) : List (List ν) := (passed p q).filter (!t.has ·)

theorem missing_eq_nil (h : p ++ q ∈ t.dirs) : t.missing p q = [] := by
  unfold missing passed
  rw [List.filter_eq_nil_iff]
  intro d hd
  obtain ⟨i, hi, rfl⟩ := List.mem_map.mp hd
  obtain ⟨j, rfl⟩ := (List.mem_inits _ _).mp (List.mem_of_mem_tail hi)
  have hmem : p ++ i ∈ t.dirs := by
    rw [← List.append_assoc] at h
    exact t.mem_of_append h
  simp [has_iff.mpr hmem]

/-- With what is missing, the whole way is there. -/
theorem mem_append_missing (hp : p ∈ t.dirs) : p ++ q ∈ t.dirs ++ t.missing p q := by
  rw [List.mem_append]
  by_cases h : p ++ q ∈ t.dirs
  · exact Or.inl h
  · obtain ⟨q, c, rfl⟩ := (List.eq_nil_or_concat' q).resolve_left fun hq => h (by rwa [hq, List.append_nil])
    refine Or.inr (List.mem_filter.mpr ⟨?_, by simpa [has] using h⟩)
    rw [passed_append, ← List.append_assoc]
    exact List.mem_append_right _ List.mem_cons_self

omit [DecidableEq ν] in
theorem length_le_of_mem_passed {d : List ν} (h : d ∈ passed p q) : d.length ≤ p.length + q.length := by
  obtain ⟨i, hi, rfl⟩ := List.mem_map.mp h
  have := ((List.mem_inits _ _).mp (List.mem_of_mem_tail hi)).length_le
  rw [List.length_append]
  omega

theorem missing_append (h : p ++ q ++ [c] ∉ t.dirs) : t.missing p (q ++ [c]) = t.missing p q ++ [p ++ q ++ [c]] := by
  unfold missing
  rw [passed_append, List.filter_append, List.filter_cons_of_pos (by simpa [has] using h), List.filter_nil]

end
end DirTree
