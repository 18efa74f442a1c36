import Nget.TextHandler
import Nget.Lib.Ere
import Nget.Lib.Framing
import Nget.Theorems.Lines

/-! The mbox that messages are saved to can be read back. Every line of a message is written so that it does not begin with
    `From `, and the `>` that keeps it from that can be taken away again. -/

namespace Nget
open CString

section
variable {str line : Text} {c : Char}

/-! ### The pattern -/

theorem From_re_iff : From_re str = true ↔ ∃ n rest, str = List.replicate n '>' ++ ("From ".toList ++ rest) := by
  unfold From_re
  rw [List.isPrefixOf_iff_prefix]
  constructor
  · rintro ⟨rest, hrest⟩
    refine ⟨(str.takeWhile (· = '>')).length, rest, ?_⟩
    have hall : ∀ d ∈ str.takeWhile (· = '>'), d = '>' := fun d hd => by simpa using List.mem_takeWhile_imp hd
    rw [hrest, ← List.eq_replicate_of_mem hall, List.takeWhile_append_dropWhile]
  · rintro ⟨n, rest, rfl⟩
    refine ⟨rest, ?_⟩
    rw [List.dropWhile_append_of_pos fun d hd => by simp [List.eq_of_mem_replicate hd]]
    rfl

/-- The tokens of the pattern, and the expression that they are. -/
def fromTokens : List Ere.Token :=
  [.bol, .char '>', .dup .star, .char 'F', .char 'r', .char 'o', .char 'm', .char ' ']

def fromRegex : Ere.Regex :=
  .cat (.cat (.cat (.cat (.cat (.cat .bol (.dup (.char '>') .star)) (.char 'F')) (.char 'r')) (.char 'o')) (.char 'm'))
    (.char ' ')

theorem fromTokens_text : fromTokens.flatMap Ere.Token.text = "^>*From ".toList := by decide

theorem fromTokens_parses : Ere.Parses .ere fromTokens fromRegex :=
  .branch (.cat (.cat (.cat (.cat (.cat (.cat (.expression .bol) (.dup .char)) .char) .char) .char) .char) .char)

theorem repeats_char {loc : Ere.Locale} : ∀ {n : Nat} {before mid after : Text},
    Ere.Repeats (Ere.Regex.Matches loc id (.char c)) n before mid after ↔ mid = List.replicate n c
  | 0, _, _, _ => Iff.rfl
  | n + 1, before, mid, after => by
    rw [Ere.Repeats, List.replicate_succ]
    constructor
    · rintro ⟨_, k, rfl, ⟨d, rfl, hd⟩, hrep⟩
      rw [repeats_char.mp hrep, ← show c = d from hd, List.singleton_append]
    · intro h
      exact ⟨[c], List.replicate n c, h, ⟨c, rfl, rfl⟩, repeats_char.mpr rfl⟩

/-- The pattern is found in just the strings that `From_re` says. -/
theorem fromRegex_found {loc : Ere.Locale} : fromRegex.Found loc id str ↔ From_re str = true := by
  rw [From_re_iff]
  constructor
  · rintro ⟨before, mid, after, rfl, h⟩
    obtain ⟨_, _, rfl, ⟨_, _, rfl, ⟨_, _, rfl, ⟨_, _, rfl, ⟨_, _, rfl, ⟨_, _, rfl, ⟨rfl, rfl⟩, n, -, -, hrep⟩, _, rfl, hF⟩,
      _, rfl, hr⟩, _, rfl, ho⟩, _, rfl, hm⟩, _, rfl, hs⟩ := h
    obtain rfl := repeats_char.mp hrep
    obtain rfl : _ = 'F' := hF.symm
    obtain rfl : _ = 'r' := hr.symm
    obtain rfl : _ = 'o' := ho.symm
    obtain rfl : _ = 'm' := hm.symm
    obtain rfl : _ = ' ' := hs.symm
    exact ⟨n, after, by simp⟩
  · rintro ⟨n, rest, rfl⟩
    refine ⟨[], List.replicate n '>' ++ "From ".toList, rest, by simp, ?_⟩
    refine ⟨_, [' '], ?_, ⟨_, ['m'], rfl, ⟨_, ['o'], rfl, ⟨_, ['r'], rfl, ⟨_, ['F'], rfl, ⟨[], List.replicate n '>', rfl,
      ⟨rfl, rfl⟩, n, Nat.zero_le n, by simp [Ere.Dup.bounds], repeats_char.mpr rfl⟩, ⟨_, rfl, rfl⟩⟩, ⟨_, rfl, rfl⟩⟩,
      ⟨_, rfl, rfl⟩⟩, ⟨_, rfl, rfl⟩⟩, ⟨_, rfl, rfl⟩⟩
    simp

/-! ### Lines that are written -/

/-- The lines that a reader of the mbox takes for separators. -/
def opensMessage (line : Text) : Bool := "From ".toList.isPrefixOf line

/-- A line as `writeline` writes it with `escape_From`. -/
def escapeLine (line : Text) : Text := if From_re line then '>' :: line else line

/-- A `>` is taken away from a line of the form `>...>From `. -/
def unescapeLine (line : Text) : Text := if line.head? = some '>' && From_re line then line.tail else line

theorem From_re_gt : From_re ('>' :: line) = From_re line := by
  rw [From_re, List.dropWhile_cons_of_pos (by simp), From_re]

theorem From_re_of_opensMessage (h : opensMessage line = true) : From_re line = true := by
  obtain ⟨rest, rfl⟩ := List.isPrefixOf_iff_prefix.mp h
  exact From_re_iff.mpr ⟨0, rest, rfl⟩

theorem opensMessage_escapeLine : opensMessage (escapeLine line) = false := by
  unfold escapeLine
  split
  · rfl
  · next h =>
    rw [← Bool.not_eq_true]
    exact fun hopens => h (From_re_of_opensMessage hopens)

theorem unescapeLine_escapeLine : unescapeLine (escapeLine line) = line := by
  unfold escapeLine
  split
  · next h => simp [unescapeLine, From_re_gt, h]
  · next h => simp [unescapeLine, h]

def mboxQuoting : Framing.Quoting opensMessage where
  quote := escapeLine
  unquote := unescapeLine
  opens_quote _ := opensMessage_escapeLine
  unquote_quote _ := unescapeLine_escapeLine

theorem From_re_newline : From_re (line ++ ['\n']) = From_re line := by
  rw [Bool.eq_iff_iff, From_re_iff, From_re_iff]
  constructor
  · rintro ⟨n, rest, h⟩
    rcases List.eq_nil_or_concat rest with rfl | ⟨rest, d, rfl⟩
    · exact absurd (congrArg List.getLast? h) (by simp)
    · have hlast : line ++ ['\n'] = List.replicate n '>' ++ ("From ".toList ++ rest) ++ [d] := h.trans (by simp)
      exact ⟨n, rest, (List.append_inj' hlast rfl).1⟩
  · rintro ⟨n, rest, rfl⟩
    exact ⟨n, rest ++ ['\n'], by simp⟩

/-- The line of an escaped or plain text. -/
def asWritten (escape_From : Bool) (line : Text) : Text := if escape_From then escapeLine line else line

theorem writeline_line {escape_From : Bool} (hnul : nul ∉ line) :
    writeline (line ++ ['\n']) escape_From = asWritten escape_From line ++ ['\n'] := by
  have hcstr : cstr (line ++ ['\n']) = line ++ ['\n'] := cstr_of_not_mem (by simpa using ⟨hnul, by decide⟩)
  rw [writeline, hcstr, From_re_newline]
  cases escape_From with
  | false => rfl
  | true =>
    unfold asWritten escapeLine
    cases From_re line <;> rfl

/-! ### What a handler writes -/

/-- A string that is written as it is and is one line with its end. -/
def InfoLine (str : Text) : Prop := ∃ line, '\n' ∉ line ∧ str = line ++ ['\n']

/-- What is written is lines, each of them escaped if it is to be. -/
def WritesLines (out : Bool → Text) : Prop :=
  ∃ lines : List Text, (∀ line ∈ lines, '\n' ∉ line) ∧
    ∀ escape_From, out escape_From = lines.flatMap fun line => asWritten escape_From line ++ ['\n']

namespace WritesLines
variable {out out' : Bool → Text}

theorem nil : WritesLines fun _ => [] := ⟨[], by simp, fun _ => rfl⟩

theorem append (h : WritesLines out) (h' : WritesLines out') :
    WritesLines fun escape_From => out escape_From ++ out' escape_From := by
  obtain ⟨lines, hlines, hout⟩ := h
  obtain ⟨lines', hlines', hout'⟩ := h'
  refine ⟨lines ++ lines', fun line hline => (List.mem_append.mp hline).elim (hlines line) (hlines' line),
    fun escape_From => ?_⟩
  simp only [hout, hout', List.flatMap_append]

theorem writeline (hline : '\n' ∉ line) (hnul : nul ∉ line) : WritesLines (writeline (line ++ ['\n'])) :=
  ⟨[line], by simpa using hline, fun escape_From => by rw [writeline_line hnul, List.flatMap_singleton]⟩

theorem infos : ∀ {ii : List Text}, (∀ str ∈ ii, InfoLine str ∧ nul ∉ str) →
    WritesLines fun escape_From => ii.flatMap (Nget.writeline · escape_From)
  | [], _ => nil
  | str :: ii, hii => by
    obtain ⟨⟨line, hline, rfl⟩, hnul⟩ := hii str List.mem_cons_self
    exact append (writeline hline fun h => hnul (List.mem_append_left _ h))
      (infos fun s hs => hii s (List.mem_cons_of_mem _ hs))

end WritesLines

theorem newline_escapeLine (hline : '\n' ∉ line) : '\n' ∉ escapeLine line := by
  unfold escapeLine
  split
  · simpa using hline
  · exact hline

/-- The lines with escapes are the lines without them, each escaped. -/
theorem WritesLines.escaped {out : Bool → Text} (h : WritesLines out) :
    out true = ((bufLines (out false)).map escapeLine).flatMap (· ++ ['\n']) := by
  obtain ⟨lines, hlines, hout⟩ := h
  have hplain : bufLines (out false) = lines := by
    rw [hout]
    exact bufLines_flatMap hlines
  rw [hplain, hout, List.flatMap_map]
  rfl

theorem not_mem_bgetsp {f : Text} : '\n' ∉ (bgetsp f).1 ∧ nul ∉ (bgetsp f).1 := by
  rw [bgetsp_eq]
  refine ⟨fun h => ?_, fun h => ?_⟩
  · have hline := (List.mem_filter.mp ((List.takeWhile_prefix _).subset h)).1
    simpa using List.mem_takeWhile_imp hline
  · simpa using List.mem_takeWhile_imp h

namespace TextHandler
variable {f : Text} {ii : List Text} {dupeheaders : Bool} {th : TextHandler}

theorem writeheader_writes (hline : '\n' ∉ line) (hnul : nul ∉ line) : WritesLines (writeheader (line ++ ['\n'])) := by
  have hrenamed : "X-NGet-Original-".toList ++ (line ++ ['\n']) = ("X-NGet-Original-".toList ++ line) ++ ['\n'] :=
    (List.append_assoc ..).symm
  unfold writeheader
  split
  · rw [hrenamed]
    refine .append (@WritesLines.writeline "Content-Type: text/plain".toList (by decide) (by decide)) (.writeline ?_ ?_)
    · exact fun h => (List.mem_append.mp h).elim (by decide) hline
    · exact fun h => (List.mem_append.mp h).elim (by decide) hnul
  · exact .writeline hline hnul

/-- Whether the lines are escaped makes no difference to what the loop reads and to the information that it leaves. -/
theorem headerLoop_writes : ∀ {fuel : Nat} {f : Text} {ii : List Text} {dupeheaders : Bool},
    (WritesLines fun escape_From => (headerLoop escape_From fuel f ii dupeheaders).1) ∧
    ∃ ii' f', ii' ⊆ ii ∧ ∀ escape_From, (headerLoop escape_From fuel f ii dupeheaders).2 = (ii', f')
  | 0, f, ii, _ => ⟨.nil, ii, f, List.Subset.refl ii, fun _ => rfl⟩
  | fuel + 1, f, ii, dupeheaders => by
    have hread := @not_mem_bgetsp f
    unfold headerLoop
    split
    · exact ⟨.nil, ii, [], List.Subset.refl ii, fun _ => rfl⟩
    · dsimp only
      have hheader := writeheader_writes hread.1 hread.2
      generalize hdupe : (dupeheaders && decide (ii.head? = some ((bgetsp f).1 ++ ['\n']))) = dupe
      have hsub : (if dupe = true then ii.tail else ii) ⊆ ii := by
        split
        · exact List.tail_subset ii
        · exact List.Subset.refl ii
      split
      · exact ⟨hheader, _, _, hsub, fun _ => rfl⟩
      · obtain ⟨hwrites, ii', f', hii', hrest⟩ :=
          @headerLoop_writes fuel (bgetsp f).2 (if dupe = true then ii.tail else ii) dupe
        exact ⟨hheader.append hwrites, ii', f', List.Subset.trans hii' hsub, hrest⟩

theorem bodyLoop_writes : ∀ {fuel : Nat} {f : Text}, WritesLines fun escape_From => bodyLoop escape_From fuel f
  | 0, _ => .nil
  | fuel + 1, f => by
    have hread := @not_mem_bgetsp f
    unfold bodyLoop
    split
    · exact .nil
    · exact .append (.writeline hread.1 hread.2) bodyLoop_writes

theorem writeinfo_writes (hinfo : ∀ str ∈ th.info, InfoLine str ∧ nul ∉ str) : WritesLines th.writeinfo := by
  obtain ⟨hwrites, ii', f', hii', hrest⟩ := @headerLoop_writes th.firsttemp.length th.firsttemp th.info true
  have hbody : WritesLines fun escape_From => if th.save_whole_tempfile then bodyLoop escape_From f'.length f' else [] := by
    cases th.save_whole_tempfile with
    | false => exact .nil
    | true => exact bodyLoop_writes
  have hall := (hwrites.append hbody).append (.infos fun str hstr => hinfo str (hii' hstr))
  refine Eq.mp (congrArg WritesLines (funext fun escape_From => ?_)) hall
  have hloop : headerLoop escape_From th.firsttemp.length th.firsttemp th.info true =
      ((headerLoop escape_From th.firsttemp.length th.firsttemp th.info true).1, ii', f') := Prod.ext rfl (hrest escape_From)
  rw [writeinfo, hloop]

/-! ### The loops come to their ends -/

/-- A turn for each character of the file is enough. -/
theorem headerLoop_fuel {escape_From : Bool} : ∀ {fuel : Nat} {f : Text} {ii : List Text} {dupeheaders : Bool},
    f.length ≤ fuel → headerLoop escape_From (fuel + 1) f ii dupeheaders = headerLoop escape_From fuel f ii dupeheaders
  | 0, f, ii, dupeheaders, h => by
    obtain rfl := List.length_eq_zero_iff.mp (Nat.le_zero.mp h)
    rfl
  | fuel + 1, f, ii, dupeheaders, h => by
    rw [headerLoop]
    conv_rhs => rw [headerLoop]
    by_cases hf : f = []
    · rw [if_pos hf, if_pos hf]
    · have hshort : (bgetsp f).2.length ≤ fuel := Nat.le_of_lt_succ ((length_bgetsp hf).trans_le h)
      simp only [headerLoop_fuel hshort]

theorem bodyLoop_fuel {escape_From : Bool} : ∀ {fuel : Nat} {f : Text},
    f.length ≤ fuel → bodyLoop escape_From (fuel + 1) f = bodyLoop escape_From fuel f
  | 0, f, h => by
    obtain rfl := List.length_eq_zero_iff.mp (Nat.le_zero.mp h)
    rfl
  | fuel + 1, f, h => by
    rw [bodyLoop]
    conv_rhs => rw [bodyLoop]
    by_cases hf : f = []
    · rw [if_pos hf, if_pos hf]
    · have hshort : (bgetsp f).2.length ≤ fuel := Nat.le_of_lt_succ ((length_bgetsp hf).trans_le h)
      simp only [bodyLoop_fuel hshort]

end TextHandler

/-! ### The information of a handler -/

namespace TextMessage
variable {m : TextMessage} {ms : List TextMessage} {w : TextFiles}

theorem nul_call {th : TextHandler} {call : TextHandler.Call} (hth : ∀ str ∈ th.info, nul ∉ str) :
    ∀ str ∈ (th.call call).info, nul ∉ str := by
  intro str hstr
  cases call with
  | saveWholeTempfile flag => exact hth str hstr
  | info i =>
    rcases List.mem_append.mp hstr with hstr | hstr
    · exact hth str hstr
    · rw [List.mem_singleton.mp hstr]
      exact fun h => ne_nul_of_mem_cstr h rfl
  | decodeinfo m =>
    rcases List.mem_append.mp hstr with hstr | hstr
    · exact hth str hstr
    · rw [List.mem_singleton.mp hstr]
      have hm : nul ∉ cstr m := fun h => ne_nul_of_mem_cstr h rfl
      simpa using ⟨by decide, hm, by decide⟩

theorem nul_handler : ∀ str ∈ m.handler.info, nul ∉ str :=
  List.foldlRecOn m.calls TextHandler.call (motive := fun th => ∀ str ∈ th.info, nul ∉ str) (by simp) fun _ hth _ _ =>
    nul_call hth

/-! ### Saving -/

/-- The message goes to the mbox. -/
def toMbox (m : TextMessage) : Bool :=
  m.texthandling = .mbox && !(m.handler.infocount = 0 && m.handler.decodeinfocount ≠ 0 && !m.save_text_for_binaries &&
    !m.handler.save_whole_tempfile)

theorem newline_dayName : ∀ d : Fin 7, '\n' ∉ dayName d := by decide

theorem newline_monthName : ∀ d : Fin 12, '\n' ∉ monthName d := by decide

theorem newline_toDigits {n : Nat} : '\n' ∉ Nat.toDigits 10 n := fun h => absurd (isDigit_of_mem_toDigits h) (by decide)

theorem newline_leftpad {n width : Nat} {c : Char} (hc : '\n' ≠ c) : '\n' ∉ (Nat.toDigits 10 n).leftpad width c := by
  intro h
  rcases List.mem_append.mp h with h | h
  · exact hc (List.eq_of_mem_replicate h)
  · exact newline_toDigits h

theorem newline_printInt {n : Int32} : '\n' ∉ printInt n := by
  unfold printInt
  split
  · simpa using newline_toDigits
  · exact newline_toDigits

theorem newline_timeText {tm : Tm} : '\n' ∉ timeText tm := by
  have hblank : '\n' ≠ ' ' := by decide
  have hcolon : '\n' ≠ ':' := by decide
  have hzero : '\n' ≠ '0' := by decide
  simp only [timeText, twoDigits, List.mem_append, List.mem_cons, newline_dayName, newline_monthName, newline_printInt,
    newline_leftpad hblank, newline_leftpad hzero, hblank, hcolon, or_self, not_false_eq_true]

/-- The separator is one line, and one that begins a message. -/
theorem separator_line : ∃ line, '\n' ∉ line ∧ opensMessage line = true ∧ TextHandler.separator m.curtime = line ++ ['\n'] := by
  have hversion : '\n' ∉ "From nget-".toList ++ packageVersion ++ [' '] := by decide
  have hopens : "From ".toList <+: "From nget-".toList ++ packageVersion ++ [' '] := by decide
  refine ⟨"From nget-".toList ++ packageVersion ++ [' '] ++ timeText m.curtime, ?_, ?_, ?_⟩
  · exact fun h => (List.mem_append.mp h).elim hversion newline_timeText
  · exact List.isPrefixOf_iff_prefix.mpr (hopens.trans (List.prefix_append _ _))
  · exact (List.append_assoc _ (timeText m.curtime) ['\n']).symm

/-- The separator without the end of its line. -/
def separatorLine (m : TextMessage) : Text := (TextHandler.separator m.curtime).dropLast

/-- What the message adds to the mbox. -/
def mboxText (m : TextMessage) : Text :=
  if m.toMbox then TextHandler.separator m.curtime ++ m.handler.writeinfo true ++ ['\n'] else []

theorem call_fields {th : TextHandler} {call : TextHandler.Call} : (th.call call).texthandling = th.texthandling ∧
    (th.call call).save_text_for_binaries = th.save_text_for_binaries := by
  cases call <;> exact ⟨rfl, rfl⟩

theorem handler_fields : m.handler.texthandling = m.texthandling ∧
    m.handler.save_text_for_binaries = m.save_text_for_binaries :=
  List.foldlRecOn m.calls TextHandler.call (motive := fun th => th.texthandling = m.texthandling ∧
    th.save_text_for_binaries = m.save_text_for_binaries) ⟨rfl, rfl⟩ fun _ hth _ _ =>
    ⟨call_fields.1.trans hth.1, call_fields.2.trans hth.2⟩

theorem mbox_save : (m.handler.save m.curtime w).mbox.getD [] = w.mbox.getD [] ++ m.mboxText := by
  unfold TextHandler.save mboxText toMbox
  rw [handler_fields.1, handler_fields.2]
  split
  · next h => simp only [h, Bool.not_true, Bool.and_false, Bool.false_eq_true, if_false, List.append_nil]
  · next h =>
    have h' := Bool.eq_false_iff.mpr h
    cases m.texthandling <;> simp only [h', Bool.not_false, Bool.and_true] <;> split <;> simp

theorem mbox_saves : ∀ {ms : List TextMessage} {w : TextFiles},
    (saves ms w).mbox.getD [] = w.mbox.getD [] ++ (ms.filter toMbox).flatMap mboxText
  | [], w => by simp [saves]
  | m :: ms, w => by
    have hrest : saves (m :: ms) w = saves ms (m.handler.save m.curtime w) := rfl
    rw [hrest, mbox_saves, mbox_save, List.append_assoc]
    cases hm : m.toMbox with
    | false => simp [hm, mboxText]
    | true => simp [hm]

theorem separator_eq : TextHandler.separator m.curtime = m.separatorLine ++ ['\n'] := by
  obtain ⟨line, -, -, h⟩ := @separator_line m
  rw [separatorLine, h, List.dropLast_concat]

theorem newline_separatorLine : '\n' ∉ m.separatorLine := by
  obtain ⟨line, hline, -, h⟩ := @separator_line m
  rwa [separatorLine, h, List.dropLast_concat]

theorem opensMessage_separatorLine : opensMessage m.separatorLine = true := by
  obtain ⟨line, -, hopens, h⟩ := @separator_line m
  rwa [separatorLine, h, List.dropLast_concat]

/-- The lines that `writeinfo` writes when it does not escape them. -/
def lines (m : TextMessage) : List Text := bufLines (m.handler.writeinfo false)

theorem mboxText_eq (hinfo : ∀ str ∈ m.handler.info, InfoLine str) (hm : m.toMbox = true) :
    m.mboxText = (Framing.frame mboxQuoting [] (m.separatorLine, m.lines)).flatMap (· ++ ['\n']) := by
  have hwrites := TextHandler.writeinfo_writes fun str hstr => ⟨hinfo str hstr, nul_handler str hstr⟩
  rw [mboxText, if_pos hm, hwrites.escaped, separator_eq, Framing.frame, List.flatMap_cons, List.flatMap_append,
    List.append_assoc]
  rfl

theorem newline_frame {line : Text} (hline : line ∈ Framing.frame mboxQuoting [] (m.separatorLine, m.lines)) : '\n' ∉ line := by
  rcases List.mem_cons.mp hline with rfl | hline
  · exact newline_separatorLine
  · rcases List.mem_append.mp hline with hline | hline
    · obtain ⟨line, hplain, rfl⟩ := List.mem_map.mp hline
      exact newline_escapeLine (newline_of_mem_bufLines hplain)
    · rw [List.mem_singleton.mp hline]
      exact List.not_mem_nil

/-- The lines of the mbox are those of the messages that went there, in their frames. -/
theorem bufLines_saves (hinfo : ∀ m ∈ ms, ∀ str ∈ m.handler.info, InfoLine str) :
    bufLines ((saves ms {}).mbox.getD []) =
      ((ms.filter toMbox).map fun m => (m.separatorLine, m.lines)).flatMap (Framing.frame mboxQuoting []) := by
  have htexts : ∀ m ∈ ms.filter toMbox,
      m.mboxText = (Framing.frame mboxQuoting [] (m.separatorLine, m.lines)).flatMap (· ++ ['\n']) := fun m hm =>
    mboxText_eq (hinfo m (List.mem_filter.mp hm).1) (List.mem_filter.mp hm).2
  rw [mbox_saves, Option.getD_none, List.nil_append, List.flatMap_map, List.flatMap_congr htexts, ← List.flatMap_assoc]
  refine bufLines_flatMap fun line hline => ?_
  obtain ⟨m, -, hm⟩ := List.mem_flatMap.mp hline
  exact newline_frame hm

end TextMessage

/-- The messages can be told apart in the mbox and are found in it as they were. -/
structure MboxHolds (text : Text) (ms : List TextMessage) : Prop where
  /-- The lines that begin with `From ` are the separators. -/
  separators : (bufLines text).filter opensMessage = ms.map TextMessage.separatorLine
  /-- Every line belongs to a message. -/
  whole : (Framing.split opensMessage (bufLines text)).flatMap (fun m => m.1 :: m.2) = bufLines text
  /-- Without separator, blank line and escapes, a message has the lines that `writeinfo` writes. -/
  recovered : (Framing.split opensMessage (bufLines text)).map (Framing.unframe mboxQuoting) =
    ms.map fun m => ((m.separatorLine, m.lines), some [])

/-- Messages saved to an mbox that is not there yet are in it, one behind the other. -/
theorem saves_mboxHolds {ms : List TextMessage} (hinfo : ∀ m ∈ ms, ∀ str ∈ m.handler.info, InfoLine str) :
    MboxHolds ((TextMessage.saves ms {}).mbox.getD []) (ms.filter TextMessage.toMbox) := by
  have hopens : ∀ m ∈ (ms.filter TextMessage.toMbox).map fun m => (m.separatorLine, m.lines), opensMessage m.1 = true := by
    intro m hm
    obtain ⟨m, -, rfl⟩ := List.mem_map.mp hm
    exact TextMessage.opensMessage_separatorLine
  have hlines := TextMessage.bufLines_saves hinfo
  have hsplit := @Framing.split_frames _ _ mboxQuoting [] _ rfl hopens
  refine ⟨?_, ?_, ?_⟩
  · rw [hlines, Framing.filter_frames rfl hopens, List.map_map]
    rfl
  · rw [hlines, hsplit, List.flatMap_map]
    rfl
  · rw [hlines, hsplit, List.map_map, List.map_map]
    exact List.map_congr_left fun m _ => Framing.unframe_frame

/-- A message whose header and text have lines that could be taken for separators. -/
def doubtful : TextMessage where
  texthandling := .mbox
  save_text_for_binaries := false
  firsttemp := "Subject: a\nContent-Type: message/partial\n>From b\n\nFrom c\n".toList
  calls := [.info "Subject: a\n".toList, .info "From c\n".toList, .decodeinfo "UUdata d".toList]
  curtime := ⟨0, 30, 12, 7, 3, 103, 1⟩

theorem saves_mboxHolds_two : MboxHolds ((TextMessage.saves [doubtful, doubtful] {}).mbox.getD [])
    ([doubtful, doubtful].filter TextMessage.toMbox) := by
  refine saves_mboxHolds fun m hm str hstr => ?_
  obtain rfl : m = doubtful := by simpa using hm
  have hinfo : doubtful.handler.info = ["Subject: a\n".toList, "From c\n".toList, "[UUdata d]\n".toList] := by decide
  rw [hinfo, List.mem_cons, List.mem_cons, List.mem_singleton] at hstr
  rcases hstr with rfl | rfl | rfl
  · exact ⟨"Subject: a".toList, by decide, rfl⟩
  · exact ⟨"From c".toList, by decide, rfl⟩
  · exact ⟨"[UUdata d]".toList, by decide, rfl⟩

end
end Nget
