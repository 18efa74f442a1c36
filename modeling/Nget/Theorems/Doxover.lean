import Nget.Dogroup
import Nget.Theorems.RequestRange

/-! What `doxover`, `dolistgroup` and the reply to `GROUP` bring in from a server that answers honestly for a
    set of articles: `doxover` adds a header for each article of the set in the range, whatever the window
    of commands sent ahead, and `dolistgroup` gives the set. -/

namespace Nget
open CString

/-- The articles that a server has, by number, and what an overview line says of one. -/
structure OverviewRow where
  articlenum : UInt64
  subject : Text
  author : Text
  date : Text
  messageid : Text
  references : Text
  bytes : UInt64
  lines : UInt64
  more : List Text := []
  wellFormed : ∀ t ∈ [subject, author, date, messageid, references] ++ more, '\t' ∉ t ∧ nul ∉ t

namespace OverviewRow

def fields (row : OverviewRow) : List Text :=
  [printUlong row.articlenum, row.subject, row.author, row.date, row.messageid, row.references, printUlong row.bytes,
    printUlong row.lines] ++ row.more

/-- The overview line: the fields with tabs between them. -/
def line (row : OverviewRow) : Text := joinWith '\t' row.fields

end OverviewRow

/-- The server answers for the articles `E`. -/
structure Honest (answers : Answers) (E : Finset UInt64) (low high : UInt64) : Prop where
  inside : ∀ n ∈ E, 0 < n ∧ n < Nrange.varmax
  least : IsLeast (E : Set UInt64) low
  greatest : IsGreatest (E : Set UInt64) high
  group : ∃ num name, answers.group =
    "211 ".toList ++ (printUlong num ++ ' ' :: (printUlong low ++ ' ' :: (printUlong high ++ ' ' :: name)))
  xover_reply : ∀ a b, atoi (answers.xover a b).reply = 224
  xover : ∀ a b, ∃ rows : List OverviewRow, (answers.xover a b).lines = rows.map OverviewRow.line ++ [['.']] ∧
    ∀ n, n ∈ rows.map (·.articlenum) ↔ n ∈ E ∧ a ≤ n ∧ n ≤ b
  listgroup_reply : atoi answers.listgroup.reply = 211
  listgroup : ∃ ns : List UInt64, answers.listgroup.lines = ns.map printUlong ++ [['.']] ∧ ∀ n, n ∈ ns ↔ n ∈ E

/-! ### An overview line gives its article's header -/

section
variable {row : OverviewRow} {decodeTextdate : Text → Int64} {serverid : UInt64} {group : Text} {now : Int64}

/-- The header that an overview line gives. -/
def OverviewRow.header (decodeTextdate : Text → Int64) (serverid : UInt64) (group : Text) (row : OverviewRow) : NntpHeader :=
  overviewHeader decodeTextdate serverid group row.fields

theorem OverviewRow.not_mem_field {t : Text} (ht : t ∈ row.fields) : '\t' ∉ t ∧ nul ∉ t := by
  have hnum : ∀ n, '\t' ∉ printUlong n ∧ nul ∉ printUlong n := fun n =>
    ⟨not_mem_printUlong (by decide), not_mem_printUlong (by decide)⟩
  have hwf := row.wellFormed t
  simp only [fields, List.mem_append, List.mem_cons, List.not_mem_nil, or_false] at ht hwf
  rcases ht with (rfl | rfl | rfl | rfl | rfl | rfl | rfl | rfl) | ht
  · exact hnum _
  · exact hwf (by simp)
  · exact hwf (by simp)
  · exact hwf (by simp)
  · exact hwf (by simp)
  · exact hwf (by simp)
  · exact hnum _
  · exact hnum _
  · exact hwf (Or.inr ht)

theorem OverviewRow.split_line : CString.split '\t' (cstr row.line) = row.fields := by
  have hne : row.fields ≠ [] := by simp [fields]
  rw [cstr_of_not_mem, line, split_joinWith hne fun t ht => (not_mem_field ht).1]
  intro h
  rcases mem_joinWith h with h | ⟨t, ht, h⟩
  · exact absurd h (by decide)
  · exact (not_mem_field ht).2 h

theorem OverviewRow.isDot_line : isDot row.line = false := by
  obtain ⟨c, cs, hcs, hc⟩ := toDigits_eq_cons row.articlenum.toNat
  have hne : c ≠ '.' := by
    rintro rfl
    exact absurd hc (by decide)
  have hline : row.line.head? = some c := by
    simp only [line, fields, List.cons_append, joinWith, printUlong, hcs, List.head?_cons]
  simp [isDot, hline, hne]

theorem nonNumeric_printUlong {i : Nat} {n : UInt64} : nonNumeric i (printUlong n) = false := by
  have hdrop : (printUlong n).dropWhile (fun c => c.isDigit || isspace c) = [] :=
    List.dropWhile_eq_nil_iff.mpr fun c hc => by simp [isDigit_of_mem_toDigits hc]
  simp [nonNumeric, hdrop]

theorem le_countFields : ∀ (ts : List Text) (i : Nat), i ≤ countFields i ts
  | [], _ => le_rfl
  | t :: ts, i => by
    unfold countFields
    split
    · split
      · exact le_rfl
      · exact (Nat.le_succ i).trans (le_countFields ts (i + 1))
    · exact le_rfl

theorem nonNumeric_of_text {i : Nat} {t : Text} (hi : i ≠ 0 ∧ i ≠ 6 ∧ i ≠ 7) : nonNumeric i t = false := by
  simp [nonNumeric, hi]

/-- An overview line has the eight fields that make a header. -/
theorem OverviewRow.countFields_fields : 7 < countFields 0 row.fields := by
  simp only [fields, List.cons_append, List.nil_append, countFields, nonNumeric_printUlong,
    nonNumeric_of_text (i := 1) (by decide), nonNumeric_of_text (i := 0 + 1 + 1) (by decide),
      nonNumeric_of_text (i := 0 + 1 + 1 + 1) (by decide),
    nonNumeric_of_text (i := 0 + 1 + 1 + 1 + 1) (by decide), nonNumeric_of_text (i := 0 + 1 + 1 + 1 + 1 + 1) (by decide)]
  exact le_countFields row.more 8

theorem OverviewRow.header_articlenum : (row.header decodeTextdate serverid group).articlenum = row.articlenum := by
  have := @atoul_printUlong [] row.articlenum (by simp)
  rw [List.append_nil] at this
  simp [header, overviewHeader, fields, this]

theorem OverviewRow.header_serverid : (row.header decodeTextdate serverid group).serverid = serverid := by
  simp [header, overviewHeader]

/-! ### `doxover` -/

/-- The cache with the headers of the rows added. -/
def addRows (decodeTextdate : Text → Int64) (serverid : UInt64) (group : Text) (now : Int64) (rows : List OverviewRow)
    (c : NntpCache) : NntpCache :=
  rows.foldl (fun c row => (c.additem (row.header decodeTextdate serverid group) now).1) c

/-- The lines of an honest answer add the headers of its rows. -/
theorem doxoverLines_spec {low high : UInt64} {streamed : Int} : ∀ (rows : List OverviewRow) (last : UInt64) (st : Session),
    ∃ st', doxoverLines decodeTextdate serverid group now low high streamed (rows.map OverviewRow.line ++ [['.']])
      last st = .ok st' ∧
      st'.cache = addRows decodeTextdate serverid group now rows st.cache
  | [], last, st => ⟨st, rfl, rfl⟩
  | row :: rows, last, st => by
    have hseven := row.countFields_fields
    have hone : ¬countFields 0 row.fields ≤ 1 := by omega
    rw [List.map_cons, List.cons_append]
    unfold doxoverLines
    simp only [row.isDot_line, row.split_line, hseven, hone, decide_false, Bool.false_and, Bool.false_eq_true,
      if_false, if_true]
    split
    · obtain ⟨st', hok, hcache⟩ := doxoverLines_spec rows last { st with
        cache := (st.cache.additem (row.header decodeTextdate serverid group) now).1, xoverWarn := st.xoverWarn + 1 }
      exact ⟨st', hok, hcache⟩
    · obtain ⟨st', hok, hcache⟩ := doxoverLines_spec rows
        ((row.header decodeTextdate serverid group).articlenum + 1)
        { st with cache := (st.cache.additem (row.header decodeTextdate serverid group) now).1 }
      exact ⟨st', hok, hcache⟩

theorem sendXovers_cache : ∀ (ws : List (UInt64 × UInt64)) (streamed : Int) (st : Session),
    (sendXovers ws streamed st).2.2.cache = st.cache
  | [], _, _ => rfl
  | w :: ws, streamed, st => by
    unfold sendXovers
    split
    · exact sendXovers_cache ws _ _
    · rfl

theorem chkreply_ok {st : Session} {reply : Text} (h : atoi reply / 100 = 2) : chkreply st reply = .ok () := by
  have hne : atoi reply ≠ 400 := fun heq => by
    rw [heq] at h
    exact absurd h (by decide)
  simp [chkreply, hne, h]

/-- The ranges of an honest server add the headers of its articles in them, whatever was sent ahead. -/
theorem doxoverRanges_spec {answers : Answers} {E : Finset UInt64} {low high : UInt64} (hh : Honest answers E low high) :
    ∀ (rs ws : List (UInt64 × UInt64)) (streamed : Int) (st : Session),
      ∃ st' rows, doxoverRanges decodeTextdate serverid group now answers.xover rs ws streamed st = .ok st' ∧
        st'.cache = addRows decodeTextdate serverid group now rows st.cache ∧
        ∀ n, n ∈ rows.map (·.articlenum) ↔ n ∈ E ∧ ∃ r ∈ rs, r.2 ≤ n ∧ n ≤ r.1
  | [], _, _, st => ⟨st, [], rfl, rfl, by simp⟩
  | r :: rs, ws, streamed, st => by
    have hsent := sendXovers_cache ws streamed st
    unfold doxoverRanges
    generalize sendXovers ws streamed st = sent at hsent
    obtain ⟨ws, streamed, st1⟩ := sent
    obtain ⟨rows, hlines, hrows⟩ := hh.xover r.2 r.1
    obtain ⟨st2, hok, hcache⟩ := @doxoverLines_spec decodeTextdate serverid group now r.2 r.1 (streamed - 1) rows r.2 st1
    obtain ⟨st', rows', hok', hcache', hrows'⟩ := doxoverRanges_spec hh rs ws (streamed - 1) st2
    refine ⟨st', rows ++ rows', ?_, ?_, fun n => ?_⟩
    · have hreply : chkreply st1 (answers.xover r.2 r.1).reply = .ok () := chkreply_ok (by rw [hh.xover_reply]; decide)
      simp only [bind, Except.bind]
      rw [hreply]
      simp only
      rw [hlines, hok]
      exact hok'
    · rw [hcache', hcache, hsent]
      simp [addRows]
    · simp only [List.map_append, List.mem_append, hrows n, hrows' n, List.mem_cons, exists_eq_or_imp]
      tauto

theorem doxover_spec {answers : Answers} {E : Finset UInt64} {low high : UInt64} (hh : Honest answers E low high) (r : Nrange)
    (st : Session) : ∃ st' rows, doxover decodeTextdate serverid group now answers.xover r st = .ok st' ∧
      st'.cache = addRows decodeTextdate serverid group now rows st.cache ∧
      ∀ n, n ∈ rows.map (·.articlenum) ↔ n ∈ E ∧ n ∈ r := by
  unfold doxover
  split
  · next hempty =>
    refine ⟨st, [], rfl, rfl, fun n => ?_⟩
    have hnone : n ∉ r := fun ⟨e, he, _⟩ => SortedMap.isEmpty_iff.mp hempty e he
    simp [hnone]
  · exact doxoverRanges_spec hh _ _ _ _

/-! ### `dolistgroup` -/

theorem dolistgroupLines_spec {st : Session} : ∀ (ns : List UInt64) (existing : Nrange), existing.Canonical →
    ∃ r, dolistgroupLines st (ns.map printUlong ++ [['.']]) existing = .ok r ∧ r.Canonical ∧
      ∀ n, n ∈ r ↔ n ∈ existing ∨ n ∈ ns
  | [], existing, hc => ⟨existing, rfl, hc, by simp⟩
  | m :: ns, existing, hc => by
    obtain ⟨c, cs, hcs, hdigit⟩ := toDigits_eq_cons m.toNat
    have hdot : isDot (printUlong m) = false := by
      have hne : c ≠ '.' := by
        rintro rfl
        exact absurd hdigit (by decide)
      simp [isDot, printUlong, hcs, hne]
    have hcstr : cstr (printUlong m) = printUlong m := cstr_of_not_mem (not_mem_printUlong (by decide))
    have hne : (printUlong m).isEmpty = false := by simp [printUlong, hcs]
    have hscan : (scan (printUlong m)).rest = [] := by
      have := @scan_toDigits [] m.toNat (by simp)
      rw [List.append_nil] at this
      rw [printUlong, this]
    have hnum := @atoul_printUlong [] m (by simp)
    rw [List.append_nil] at hnum
    obtain ⟨hc', hmem⟩ := Nrange.insertOne_spec (n := m) hc
    obtain ⟨r, hok, hr, hall⟩ := dolistgroupLines_spec ns (existing.insertOne m) hc'
    refine ⟨r, ?_, hr, fun n => ?_⟩
    · rw [List.map_cons, List.cons_append]
      unfold dolistgroupLines
      simp only [hdot, hcstr, hne, hscan, List.isEmpty_nil, Bool.not_true, Bool.or_self, Bool.false_eq_true, if_false, hnum]
      exact hok
    · rw [hall n, hmem n, List.mem_cons, or_assoc]
      refine or_congr Iff.rfl (or_congr ⟨fun h => le_antisymm h.2 h.1, fun h => h ▸ ⟨le_rfl, le_rfl⟩⟩ Iff.rfl)

theorem dolistgroup_spec {answers : Answers} {E : Finset UInt64} {low high : UInt64} (hh : Honest answers E low high)
    (st : Session) : ∃ r, dolistgroup answers.listgroup st = .ok r ∧ r.Canonical ∧ ∀ n, n ∈ r ↔ n ∈ E := by
  obtain ⟨ns, hlines, hns⟩ := hh.listgroup
  obtain ⟨r, hok, hr, hmem⟩ := @dolistgroupLines_spec st ns ∅ Nrange.canonical_empty
  refine ⟨r, ?_, hr, fun n => ?_⟩
  · unfold dolistgroup
    rw [chkreply_ok (by rw [hh.listgroup_reply]; decide), hlines]
    exact hok
  · rw [hmem n, hns n, or_iff_right Nrange.not_mem_empty]

/-! ### The reply to `GROUP` -/

theorem afterSpace_append {t rest : Text} (ht : ' ' ∉ t) : afterSpace (t ++ ' ' :: rest) = some rest := by
  have hdrop : (t ++ ' ' :: rest).dropWhile (· ≠ ' ') = ' ' :: rest := by
    rw [List.dropWhile_append_of_pos fun c hc => by simpa using fun h : c = ' ' => ht (h ▸ hc)]
    simp
  rw [afterSpace, hdrop]

theorem group_spec {answers : Answers} {E : Finset UInt64} {low high : UInt64} (hh : Honest answers E low high) :
    atoi answers.group / 100 = 2 ∧ ∃ num, groupNumbers answers.group = some (num, low, high) := by
  obtain ⟨num, name, hgroup⟩ := hh.group
  have hspace : ∀ n : UInt64, ' ' ∉ printUlong n := fun n => not_mem_printUlong (by decide)
  refine ⟨?_, num, ?_⟩
  · have hcode : atoi answers.group = 211 := by
      have hscan := @scan_toDigits
        (' ' :: (printUlong num ++ ' ' :: (printUlong low ++ ' ' :: (printUlong high ++ ' ' :: name)))) 211 (by simp)
      unfold atoi strtol
      rw [hgroup, show "211 ".toList = Nat.toDigits 10 211 ++ [' '] from by decide, List.append_assoc, List.singleton_append,
        hscan]
      simp only
      decide
    rw [hcode]
    decide
  · unfold groupNumbers
    rw [hgroup, show "211 ".toList = ['2', '1', '1'] ++ [' '] from by decide, List.append_assoc, List.singleton_append,
      afterSpace_append (by decide)]
    simp only [bind, Option.bind, afterSpace_append (hspace _)]
    rw [atoul_printUlong num (by simp), atoul_printUlong low (by simp), atoul_printUlong high (by simp)]

end

end Nget
