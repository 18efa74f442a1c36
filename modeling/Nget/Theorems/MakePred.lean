import Nget.Etree
import Nget.Lib.Postfix

/-! `make_pred` takes exactly the expressions in postfix order, and its predicate means what the expression means:
    each comparison holds of a file by its keyword, its operator and its value, and the connectives are those of
    logic. -/

namespace Nget
open CString Postfix
variable {calls : EtreeCalls} {flags : Nat}

/-- The three words of a comparison. -/
structure Comparison where
  keyword : Text
  value : Text
  op : Text

/-! ### What expressions mean -/

/-- What a keyword compares: texts of the file with a regular expression, numbers, or dates, also by their age. -/
inductive Field where
  | regex (texts : NntpFile → List Text)
  | ulong (get : NntpFile → UInt64)
  | int (get : NntpFile → Int)
  | date (get : NntpFile → Int64)
  | age (get : NntpFile → Int64)

/-- The keywords of the manual, in any case. -/
def field (calls : EtreeCalls) (keyword : Text) : Option Field :=
  if strcaseeq keyword "subject".toList then some (.regex fun f => [f.subject])
  else if strcaseeq keyword "author".toList then some (.regex fun f => [f.author])
  else if strcaseeq keyword "mid".toList || strcaseeq keyword "messageid".toList then some (.regex fun f => [f.bamid])
  else if strcaseeq keyword "bytes".toList then some (.ulong (NntpFile.sumParts calls.bytes))
  else if strcaseeq keyword "lines".toList then some (.ulong (NntpFile.sumParts calls.lines))
  else if strcaseeq keyword "req".toList then some (.int fun f => f.req.toInt)
  else if strcaseeq keyword "have".toList then some (.int fun f => f.haveNum)
  else if strcaseeq keyword "date".toList then some (.date NntpFile.badate)
  else if strcaseeq keyword "age".toList then some (.age NntpFile.badate)
  else if strcaseeq keyword "update".toList then some (.date fun f => f.update)
  else if strcaseeq keyword "updateage".toList then some (.age fun f => f.update)
  else if strcaseeq keyword "references".toList then some (.regex fun f => f.references)
  else none

/-- The operators on numbers and dates. -/
def ordering {T : Type} [LinearOrder T] (op : Text) : Option (T → T → Bool) :=
  if op = "==".toList then some fun a b => a = b
  else if op = "!=".toList then some fun a b => a ≠ b
  else if op = "<".toList then some fun a b => a < b
  else if op = "<=".toList then some fun a b => a ≤ b
  else if op = ">".toList then some fun a b => b < a
  else if op = ">=".toList then some fun a b => b ≤ a
  else none

/-- The operators on regular expressions: whether they ask for a match. -/
def matching (op : Text) : Option Bool :=
  if op = "==".toList || op = "=~".toList then some true
  else if op = "!=".toList || op = "!~".toList then some false
  else none

/-- What an operator and a value say of a field; nothing when the operator is none for it or the value cannot be
    read. A file is younger than an age when its date is past the date of the age. -/
def Field.meaning (calls : EtreeCalls) (flags : Nat) (op value : Text) : Field → Option (NntpFile → Bool)
  | regex texts => (matching op).bind fun wanted => (calls.regex value flags).toOption.map fun re f => (texts f).any re = wanted
  | ulong get => (ordering op).map fun rel f => rel (get f) (atoul value)
  | int get => (ordering op).map fun rel f => rel (get f) (atoi value).toInt
  | date get => (ordering op).bind fun rel => (calls.decodeTextdate value).toOption.map fun v f => rel (get f).toInt v.toInt
  | age get => (ordering op).bind fun rel => (calls.decodeTextage value).toOption.map fun v f => rel v.toInt (get f).toInt

/-- What a comparison says of a file. -/
def Comparison.meaning (calls : EtreeCalls) (flags : Nat) (c : Comparison) : Option (NntpFile → Bool) :=
  (field calls c.keyword).bind (Field.meaning calls flags c.op (cstr c.value))

/-- The words of an expression. -/
def words : Comparison ⊕ Text → List Text
  | .inl c => [c.keyword, c.value, c.op]
  | .inr w => [w]

def isConnective (w : Text) : Bool := isAnd w || isOr w

/-- A comparison that means something and whose keyword is no connective, or a connective. -/
def Meaningful (calls : EtreeCalls) (flags : Nat) : Comparison ⊕ Text → Prop
  | .inl c => isConnective c.keyword = false ∧ (c.meaning calls flags).isSome
  | .inr w => isConnective w = true

/-- The expression `e` is written as these words. -/
def Writes (calls : EtreeCalls) (flags : Nat) (e : Expr Comparison Text) (eParts : List Text) : Prop :=
  (∀ s ∈ e.symbols, Meaningful calls flags s) ∧ e.symbols.flatMap words = eParts

/-- What an expression says of a file. -/
def holds (calls : EtreeCalls) (flags : Nat) (e : Expr Comparison Text) : NntpFile → Bool :=
  e.value (fun c => (c.meaning calls flags).getD fun _ => false) fun w p q f => if isAnd w then p f && q f else p f || q f

/-! ### One comparison -/

/-- The maker gives a predicate with the meaning, if there is one. -/
structure Gives (out : Except Text (Option (Pred NntpFile))) (meaning : Option (NntpFile → Bool)) : Prop where
  pred : ∀ m, meaning = some m → ∃ p, out = .ok (some p) ∧ ∀ f, p.eval f = m f
  nothing : meaning = none → ∀ p, out ≠ .ok (some p)

theorem gives_none {out : Except Text (Option (Pred NntpFile))} (h : ∀ p, out ≠ .ok (some p)) : Gives out none :=
  ⟨fun _ hm => (by cases hm), fun _ => h⟩

theorem gives_some {p : Pred NntpFile} {m : NntpFile → Bool} (h : ∀ f, p.eval f = m f) : Gives (.ok (some p)) (some m) :=
  ⟨fun _ hm => ⟨p, rfl, Option.some.inj hm ▸ h⟩, fun hm => by cases hm⟩

theorem gives_error {e : Text} : Gives (.error e) none := gives_none fun _ hp => by cases hp

theorem gives_ite {P : Prop} [Decidable P] {out out' : Except Text (Option (Pred NntpFile))} {k k' : Option Field}
    {meaning : Field → Option (NntpFile → Bool)} (h : Gives out (k.bind meaning)) (h' : Gives out' (k'.bind meaning)) :
    Gives (if P then out else out') ((if P then k else k').bind meaning) := by
  split
  · exact h
  · exact h'

theorem comparison_some {T : Type} [LinearOrder T] {op : Text} {get : NntpFile → T} {v : T} {rel : T → T → Bool}
    (h : ordering op = some rel) : ∃ p, comparison op get v = .ok p ∧ ∀ f, p.eval f = rel (get f) v := by
  unfold ordering at h
  unfold comparison
  split_ifs at h ⊢ <;> (cases h; exact ⟨_, rfl, fun f => rfl⟩)

theorem comparison_none {T : Type} [LinearOrder T] {op : Text} {get : NntpFile → T} {v : T}
    (h : ordering (T := T) op = none) : ∃ e, comparison op get v = .error e := by
  unfold ordering at h
  unfold comparison
  split_ifs at h ⊢
  exact ⟨_, rfl⟩

/-- An inverted operator compares from the other side. -/
theorem ordering_invertOp {T : Type} [LinearOrder T] (op : Text) :
    ordering (T := T) (invertOp op) = (ordering op).map fun rel a b => rel b a := by
  have heq : (fun a b : T => decide (a = b)) = fun a b => decide (b = a) :=
    funext fun a => funext fun b => decide_eq_decide.mpr eq_comm
  have hne : (fun a b : T => decide (a ≠ b)) = fun a b => decide (b ≠ a) :=
    funext fun a => funext fun b => decide_eq_decide.mpr ne_comm
  by_cases hlt : op = "<".toList
  · rw [hlt]
    rfl
  by_cases hle : op = "<=".toList
  · rw [hle]
    rfl
  by_cases hgt : op = ">".toList
  · rw [hgt]
    rfl
  by_cases hge : op = ">=".toList
  · rw [hge]
    rfl
  rw [invertOp, if_neg hlt, if_neg hle, if_neg hgt, if_neg hge, ordering, if_neg hlt, if_neg hle, if_neg hgt, if_neg hge]
  split
  · exact congrArg some heq
  · split
    · exact congrArg some hne
    · rfl

theorem gives_comparison {T : Type} [LinearOrder T] {op : Text} {get : NntpFile → T} {v : T} :
    Gives ((comparison op get v).map some) ((ordering op).map fun rel f => rel (get f) v) := by
  cases hrel : ordering (T := T) op with
  | none =>
    obtain ⟨e, he⟩ := @comparison_none T _ op get v hrel
    rw [he]
    exact gives_error
  | some rel =>
    obtain ⟨p, hp, heval⟩ := @comparison_some T _ op get v rel hrel
    rw [hp]
    exact gives_some heval

/-- A value that is decoded first. -/
theorem gives_decoded {D T : Type} [LinearOrder T] {op : Text} {get : NntpFile → T} {decoded : Except Text D} {value : D → T} :
    Gives (decoded.bind fun v => (comparison op get (value v)).map some)
      ((ordering op).bind fun rel => decoded.toOption.map fun v f => rel (get f) (value v)) := by
  cases decoded with
  | error e =>
    cases ordering (T := T) op with
    | none => exact gives_error
    | some rel => exact gives_error
  | ok v =>
    have hgives := @gives_comparison T _ op get (value v)
    cases hrel : ordering (T := T) op with
    | none =>
      rw [hrel] at hgives
      exact hgives
    | some rel =>
      rw [hrel] at hgives
      exact hgives

theorem gives_regex {op pattern : Text} {texts : NntpFile → List Text} {eq : NntpFile → (Text → Bool) → Bool}
    (heq : ∀ f re, eq f re = (texts f).any re) :
    Gives ((comparisonRe calls op eq pattern flags).map some) ((matching op).bind fun wanted =>
      (calls.regex pattern flags).toOption.map fun re => fun f => (texts f).any re = wanted) := by
  unfold comparisonRe matching
  cases calls.regex pattern flags with
  | error e =>
    split_ifs
    · exact gives_error
    · exact gives_error
    · exact gives_error
  | ok re =>
    split_ifs
    · refine gives_some fun f => ?_
      dsimp only [Pred.eval]
      rw [heq]
      cases (texts f).any re <;> rfl
    · refine gives_some fun f => ?_
      dsimp only [Pred.eval]
      rw [heq]
      cases (texts f).any re <;> rfl
    · exact gives_error

/-- An age is compared from the other side. -/
theorem gives_age {op : Text} {get : NntpFile → Int64} {decoded : Except Text Int64} :
    Gives (decoded.bind fun v => (comparison (invertOp op) (fun f => (get f).toInt) v.toInt).map some)
      ((ordering op).bind fun rel => decoded.toOption.map fun v f => rel v.toInt (get f).toInt) := by
  have hgives := @gives_decoded Int64 Int _ (invertOp op) (fun f => (get f).toInt) decoded Int64.toInt
  rwa [ordering_invertOp, Option.bind_map] at hgives

/-- `nntp_file_comparison_maker` makes the comparisons that mean something. -/
theorem maker_gives (c : Comparison) :
    Gives (nntpFileComparisonMaker calls c.op c.keyword c.value flags) (c.meaning calls flags) := by
  unfold nntpFileComparisonMaker Comparison.meaning field
  refine gives_ite (gives_regex fun f re => by simp) ?_
  refine gives_ite (gives_regex fun f re => by simp) ?_
  refine gives_ite (gives_regex fun f re => by simp) ?_
  refine gives_ite gives_comparison (gives_ite gives_comparison ?_)
  refine gives_ite gives_comparison (gives_ite gives_comparison ?_)
  refine gives_ite gives_decoded (gives_ite gives_age ?_)
  refine gives_ite gives_decoded (gives_ite gives_age ?_)
  exact gives_ite (gives_regex fun f re => rfl) (gives_none fun _ hp => by cases hp)

/-! ### The stack machine -/

section
variable {α : Type} {maker : Text → Text → Text → Nat → Except Text (Option (Pred α))}

/-- The predicate of a comparison that the maker knows. -/
def made (maker : Text → Text → Text → Nat → Except Text (Option (Pred α))) (flags : Nat) (c : Comparison) : Pred α :=
  match maker c.op c.keyword c.value flags with
  | .ok (some p) => p
  | _ => .comparison fun _ => false

/-- The predicate of a connective. -/
def joined (w : Text) (px py : Pred α) : Pred α := if isAnd w then .predAnd px py else .predOr px py

/-- A comparison that the maker knows and whose keyword is no connective, or a connective. -/
def Accepts (maker : Text → Text → Text → Nat → Except Text (Option (Pred α))) (flags : Nat) : Comparison ⊕ Text → Prop
  | .inl c => isConnective c.keyword = false ∧ ∃ p, maker c.op c.keyword c.value flags = .ok (some p)
  | .inr w => isConnective w = true

theorem words_ne_nil (s : Comparison ⊕ Text) : words s ≠ [] := by
  cases s <;> simp [words]

/-- What is read as the words of accepted symbols. -/
def Reads (maker : Text → Text → Text → Nat → Except Text (Option (Pred α))) (flags : Nat) (ss : List (Comparison ⊕ Text))
    (is : List Text) : Prop := (∀ s ∈ ss, Accepts maker flags s) ∧ ss.flatMap words = is

theorem reads_nil {ss : List (Comparison ⊕ Text)} : Reads maker flags ss [] ↔ ss = [] := by
  constructor
  · rintro ⟨-, hwords⟩
    cases ss with
    | nil => rfl
    | cons s ss => simp [words_ne_nil] at hwords
  · rintro rfl
    exact ⟨by simp, rfl⟩

/-- Where a symbol is due, a connective is one. -/
theorem reads_connective {i : Text} {is : List Text} {ss : List (Comparison ⊕ Text)} (hi : isConnective i = true) :
    Reads maker flags ss (i :: is) ↔ ∃ ss', ss = .inr i :: ss' ∧ Reads maker flags ss' is := by
  constructor
  · rintro ⟨hacc, hwords⟩
    cases ss with
    | nil => cases hwords
    | cons s ss =>
      rw [List.forall_mem_cons] at hacc
      cases s with
      | inl c =>
        obtain rfl : c.keyword = i := (List.cons.inj hwords).1
        exact absurd (hi.symm.trans hacc.1.1) (by decide)
      | inr w =>
        obtain ⟨rfl, hrest⟩ := List.cons.inj hwords
        exact ⟨ss, rfl, hacc.2, hrest⟩
  · rintro ⟨ss', rfl, hacc, hwords⟩
    exact ⟨List.forall_mem_cons.mpr ⟨hi, hacc⟩, by rw [List.flatMap_cons, hwords]; rfl⟩

/-- Another word is the keyword of a comparison, of which two more are read. -/
theorem reads_comparison {i : Text} {is : List Text} {ss : List (Comparison ⊕ Text)} (hi : isConnective i = false) :
    Reads maker flags ss (i :: is) ↔ ∃ v o is' ss', is = v :: o :: is' ∧ ss = .inl ⟨i, v, o⟩ :: ss' ∧
      (∃ p, maker o i v flags = .ok (some p)) ∧ Reads maker flags ss' is' := by
  constructor
  · rintro ⟨hacc, hwords⟩
    cases ss with
    | nil => cases hwords
    | cons s ss =>
      rw [List.forall_mem_cons] at hacc
      cases s with
      | inl c =>
        obtain ⟨k, v, o⟩ := c
        obtain ⟨rfl, rfl⟩ := List.cons.inj hwords
        exact ⟨v, o, _, ss, rfl, rfl, hacc.1.2, hacc.2, rfl⟩
      | inr w =>
        obtain rfl : w = i := (List.cons.inj hwords).1
        exact absurd (hi.symm.trans hacc.1) (by decide)
  · rintro ⟨v, o, is', ss', rfl, rfl, hmaker, hacc, rfl⟩
    exact ⟨List.forall_mem_cons.mpr ⟨⟨hi, hmaker⟩, hacc⟩, rfl⟩

theorem makePredLoop_connective {i : Text} {is : List Text} {st : List (Pred α)} {px py : Pred α} (hi : isConnective i = true) :
    makePredLoop maker flags none none (py :: px :: st) (i :: is) =
      makePredLoop maker flags none none (joined i px py :: st) is := by
  rw [makePredLoop, if_pos (show (isAnd i || isOr i) = true from hi)]
  unfold joined
  split
  · rfl
  · rfl

theorem makePredLoop_starved {i : Text} {is : List Text} {st : List (Pred α)} (hi : isConnective i = true) (hst :
    st.length < 2) :
    ∃ e, makePredLoop maker flags none none st (i :: is) = .error e := by
  rcases st with _ | ⟨q, _ | ⟨r, st⟩⟩
  · exact ⟨_, by rw [makePredLoop, if_pos (show (isAnd i || isOr i) = true from hi)]; simp⟩
  · exact ⟨_, by rw [makePredLoop, if_pos (show (isAnd i || isOr i) = true from hi)]; simp⟩
  · simp at hst

theorem makePredLoop_comparison {i v o : Text} {is : List Text} {st : List (Pred α)} (hi : isConnective i = false) {p : Pred α}
    (hmaker : maker o i v flags = .ok (some p)) :
    makePredLoop maker flags none none st (i :: v :: o :: is) = makePredLoop maker flags none none (p :: st) is := by
  rw [makePredLoop.eq_def]
  dsimp only
  rw [if_neg (by rw [show (isAnd i || isOr i) = false from hi]; decide), makePredLoop, makePredLoop, hmaker]
  rfl

theorem makePredLoop_unknown {i v o : Text} {is : List Text} {st : List (Pred α)} (hi : isConnective i = false)
    (hmaker : ∀ p, maker o i v flags ≠ .ok (some p)) :
    ∃ e, makePredLoop maker flags none none st (i :: v :: o :: is) = .error e := by
  rw [makePredLoop.eq_def]
  dsimp only
  rw [if_neg (by rw [show (isAnd i || isOr i) = false from hi]; decide), makePredLoop, makePredLoop]
  cases hout : maker o i v flags with
  | error e => exact ⟨e, rfl⟩
  | ok out =>
    cases out with
    | none => exact ⟨_, rfl⟩
    | some p => exact absurd hout (hmaker p)

theorem makePredLoop_unfinished {i : Text} {is : List Text} {st : List (Pred α)} (hi : isConnective i = false)
    (his : is.length < 2) : ∃ e, makePredLoop maker flags none none st (i :: is) = .error e := by
  rw [makePredLoop.eq_def]
  dsimp only
  rw [if_neg (by rw [show (isAnd i || isOr i) = false from hi]; decide)]
  rcases is with _ | ⟨v, _ | ⟨o, is⟩⟩
  · exact ⟨"unfinished expression".toList, by simp [makePredLoop]⟩
  · exact ⟨"unfinished expression".toList, by simp [makePredLoop]⟩
  · simp at his

/-- The loop between comparisons: it succeeds exactly when what it still reads are the words of comparisons and
    connectives that leave one predicate on the stack. -/
theorem makePredLoop_iff : ∀ (is : List Text) (st : List (Pred α)) (p : Pred α),
    makePredLoop maker flags none none st is = .ok p ↔
      ∃ ss, Reads maker flags ss is ∧ run (made maker flags) joined st ss = some [p]
  | [], st, p => by
    simp only [reads_nil, exists_eq_left, run, Option.some.injEq]
    rcases st with _ | ⟨q, _ | ⟨r, st⟩⟩ <;> simp [makePredLoop]
  | i :: is, st, p => by
    by_cases hi : isConnective i = true
    · have hread : (∃ ss, Reads maker flags ss (i :: is) ∧ run (made maker flags) joined st ss = some [p]) ↔
          ∃ ss, Reads maker flags ss is ∧ run (made maker flags) joined st (.inr i :: ss) = some [p] := by
        simp only [reads_connective hi]
        constructor
        · rintro ⟨_, ⟨ss, rfl, hss⟩, hrun⟩
          exact ⟨ss, hss, hrun⟩
        · rintro ⟨ss, hss, hrun⟩
          exact ⟨_, ⟨ss, rfl, hss⟩, hrun⟩
      rw [hread]
      rcases st with _ | ⟨py, _ | ⟨px, st⟩⟩
      · obtain ⟨e, he⟩ := @makePredLoop_starved flags α maker i is [] hi (by simp)
        simp [he, run]
      · obtain ⟨e, he⟩ := @makePredLoop_starved flags α maker i is [py] hi (by simp)
        simp [he, run]
      · rw [makePredLoop_connective hi, makePredLoop_iff is (joined i px py :: st) p]
        rfl
    · have hi : isConnective i = false := Bool.not_eq_true _ ▸ hi
      simp only [reads_comparison hi]
      rcases is with _ | ⟨v, _ | ⟨o, is⟩⟩
      · obtain ⟨e, he⟩ := @makePredLoop_unfinished flags α maker i [] st hi (by simp)
        simp [he]
      · obtain ⟨e, he⟩ := @makePredLoop_unfinished flags α maker i [v] st hi (by simp)
        simp [he]
      · by_cases hmaker : ∃ q, maker o i v flags = .ok (some q)
        · obtain ⟨q, hq⟩ := hmaker
          have hmade : made maker flags ⟨i, v, o⟩ = q := by rw [made, hq]
          rw [makePredLoop_comparison hi hq, makePredLoop_iff is (q :: st) p]
          constructor
          · rintro ⟨ss, hss, hrun⟩
            exact ⟨.inl ⟨i, v, o⟩ :: ss, ⟨v, o, is, ss, rfl, rfl, ⟨q, hq⟩, hss⟩, by rw [run, hmade, hrun]⟩
          · rintro ⟨_, ⟨_, _, _, ss, heq, rfl, -, hss⟩, hrun⟩
            cases heq
            rw [run, hmade] at hrun
            exact ⟨ss, hss, hrun⟩
        · obtain ⟨e, he⟩ := @makePredLoop_unknown flags α maker i v o is st hi (not_exists.mp hmaker)
          rw [he]
          constructor
          · intro hok
            cases hok
          · rintro ⟨_, ⟨_, _, _, _, heq, -, hknown, -⟩, -⟩
            cases heq
            exact absurd hknown hmaker

end

/-! ### Files -/

theorem accepts_iff_meaningful {s : Comparison ⊕ Text} : Accepts (nntpFileComparisonMaker calls) flags s ↔
    Meaningful calls flags s := by
  cases s with
  | inr w => exact Iff.rfl
  | inl c =>
    have hgives := @maker_gives calls flags c
    refine and_congr_right fun _ => ?_
    rw [Option.isSome_iff_exists]
    constructor
    · rintro ⟨p, hp⟩
      cases hm : c.meaning calls flags with
      | none => exact absurd hp (hgives.nothing hm p)
      | some m => exact ⟨m, rfl⟩
    · rintro ⟨m, hm⟩
      obtain ⟨p, hp, -⟩ := hgives.pred m hm
      exact ⟨p, hp⟩

/-- A predicate made of an expression says what the expression says. -/
theorem eval_value {f : NntpFile} : ∀ {e : Expr Comparison Text}, (∀ s ∈ e.symbols, Meaningful calls flags s) →
    (e.value (made (nntpFileComparisonMaker calls) flags) joined).eval f = holds calls flags e f
  | .operand c, h => by
    obtain ⟨-, hsome⟩ := h (.inl c) (by simp [Expr.symbols])
    obtain ⟨m, hm⟩ := Option.isSome_iff_exists.mp hsome
    obtain ⟨p, hp, heval⟩ := (@maker_gives calls flags c).pred m hm
    unfold holds
    rw [Expr.value, Expr.value, made, hp, hm]
    exact heval f
  | .connective w l r, h => by
    have hl := @eval_value f l fun s hs => h s (by simp [Expr.symbols, hs])
    have hr := @eval_value f r fun s hs => h s (by simp [Expr.symbols, hs])
    unfold holds at hl hr ⊢
    rw [Expr.value, Expr.value, ← hl, ← hr, joined]
    split
    · rfl
    · rfl

/-- `make_pred` makes a predicate of every expression, which says of each file what the expression says, and
    raises an error for words that are no expression. -/
theorem makeNntpfilePred_expression (calls : EtreeCalls) (eParts : List Text) (gflags : UInt32) :
    (∀ e, Writes calls (reFlagsOf gflags) e eParts → ∃ p, makeNntpfilePred calls eParts gflags = .ok p ∧
      ∀ f, p.eval f = holds calls (reFlagsOf gflags) e f) ∧
    ((¬∃ e, Writes calls (reFlagsOf gflags) e eParts) → ∃ err, makeNntpfilePred calls eParts gflags = .error err) := by
  have hiff := fun p => @makePredLoop_iff (reFlagsOf gflags) NntpFile (nntpFileComparisonMaker calls) eParts [] p
  constructor
  · rintro e ⟨hmean, hwords⟩
    refine ⟨_, (hiff _).mpr ⟨e.symbols, ⟨fun s hs => accepts_iff_meaningful.mpr (hmean s hs), hwords⟩, ?_⟩,
      fun f => eval_value hmean⟩
    exact run_singleton_iff.mpr ⟨e, rfl, rfl⟩
  · intro hnone
    cases hout : makeNntpfilePred calls eParts gflags with
    | error err => exact ⟨err, rfl⟩
    | ok p =>
      obtain ⟨ss, ⟨hacc, hwords⟩, hrun⟩ := (hiff p).mp hout
      obtain ⟨e, rfl, -⟩ := run_singleton_iff.mp hrun
      exact absurd ⟨e, fun s hs => accepts_iff_meaningful.mp (hacc s hs), hwords⟩ hnone

end Nget
