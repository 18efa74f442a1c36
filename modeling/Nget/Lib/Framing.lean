import Mathlib

/-! Messages one behind the other in a list of lines. A line that opens a message stands in front of each; the lines of the
    message are quoted, so that none of them opens another, and a line that says nothing ends it. -/

namespace Framing
variable {Line : Type}

/-- A way to write any line as one that opens no message, which can be undone. -/
structure Quoting (opens : Line → Bool) where
  quote : Line → Line
  unquote : Line → Line
  opens_quote : ∀ l, opens (quote l) = false
  unquote_quote : ∀ l, unquote (quote l) = l

/-- A message, with the line that opens it, as it is written. -/
def frame {opens : Line → Bool} (q : Quoting opens) (blank : Line) (m : Line × List Line) : List Line :=
  m.1 :: (m.2.map q.quote ++ [blank])

/-- The messages that a list of lines has, each with the line that opens it and the lines up to the next one. -/
def split (opens : Line → Bool) : List Line → List (Line × List Line)
  | [] => []
  | l :: ls => if opens l then (l, ls.takeWhile (!opens ·)) :: split opens ls else split opens ls

/-- A message as it was before it was written, and the line that ends it. -/
def unframe {opens : Line → Bool} (q : Quoting opens) (m : Line × List Line) : (Line × List Line) × Option Line :=
  ((m.1, m.2.dropLast.map q.unquote), m.2.getLast?)

variable {opens : Line → Bool} {q : Quoting opens} {blank : Line} {m : Line × List Line} {ms : List (Line × List Line)}

theorem split_append {ls rest : List Line} (hls : ∀ l ∈ ls, opens l = false) : split opens (ls ++ rest) = split opens rest := by
  induction ls with
  | nil => rfl
  | cons l ls ih =>
    rw [List.cons_append, split, hls l List.mem_cons_self, if_neg Bool.false_ne_true]
    exact ih fun l' hl' => hls l' (List.mem_cons_of_mem l hl')

theorem takeWhile_append {ls rest : List Line} (hls : ∀ l ∈ ls, opens l = false) (hrest : ∀ l ∈ rest.head?, opens l = true) :
    (ls ++ rest).takeWhile (!opens ·) = ls := by
  rw [List.takeWhile_append_of_pos fun l hl => by simp [hls l hl]]
  cases rest with
  | nil => simp
  | cons l rest => simp [hrest l rfl]

theorem not_opens_of_mem (hblank : opens blank = false) {l : Line} (hl : l ∈ m.2.map q.quote ++ [blank]) : opens l = false := by
  rcases List.mem_append.mp hl with hl | hl
  · obtain ⟨l, -, rfl⟩ := List.mem_map.mp hl
    exact q.opens_quote l
  · rwa [List.mem_singleton.mp hl]

theorem head?_flatMap_frame (hms : ∀ m ∈ ms, opens m.1 = true) : ∀ l ∈ (ms.flatMap (frame q blank)).head?, opens l = true := by
  cases ms with
  | nil => simp
  | cons m ms =>
    intro l hl
    obtain rfl : m.1 = l := by simpa [frame] using hl
    exact hms m List.mem_cons_self

/-- What stands between the lines that open messages are the messages that were written. -/
theorem split_frames (hblank : opens blank = false) (hms : ∀ m ∈ ms, opens m.1 = true) :
    split opens (ms.flatMap (frame q blank)) = ms.map fun m => (m.1, m.2.map q.quote ++ [blank]) := by
  induction ms with
  | nil => rfl
  | cons m ms ih =>
    have hms' : ∀ m ∈ ms, opens m.1 = true := fun m' hm' => hms m' (List.mem_cons_of_mem m hm')
    have hlines : ∀ l ∈ m.2.map q.quote ++ [blank], opens l = false := fun l => not_opens_of_mem hblank
    rw [List.flatMap_cons, frame, List.cons_append, split, hms m List.mem_cons_self, if_pos rfl,
      takeWhile_append hlines (head?_flatMap_frame hms'), split_append hlines, ih hms', List.map_cons]

/-- The lines that open messages are the ones that were written in front of them. -/
theorem filter_frames (hblank : opens blank = false) (hms : ∀ m ∈ ms, opens m.1 = true) :
    (ms.flatMap (frame q blank)).filter opens = ms.map (·.1) := by
  induction ms with
  | nil => rfl
  | cons m ms ih =>
    have hlines : (m.2.map q.quote ++ [blank]).filter opens = [] :=
      List.filter_eq_nil_iff.mpr fun l hl => by simp [not_opens_of_mem hblank hl]
    rw [List.flatMap_cons, List.filter_append, frame, List.filter_cons_of_pos (hms m List.mem_cons_self), hlines,
      ih fun m' hm' => hms m' (List.mem_cons_of_mem m hm'), List.map_cons, List.singleton_append]

theorem unframe_frame : unframe q (m.1, m.2.map q.quote ++ [blank]) = (m, some blank) := by
  have hunquote : m.2.map (q.unquote ∘ q.quote) = m.2 := by simp [Function.comp_def, q.unquote_quote]
  rw [unframe, List.dropLast_concat, List.getLast?_concat, List.map_map, hunquote]

end Framing
