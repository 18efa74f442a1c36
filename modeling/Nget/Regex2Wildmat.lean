import Nget.CString

/-! The server's pattern for an expression (`regex2wildmat` of `misc.cc`). -/

namespace Nget
open CString

/-- The text of the `RegexEx`. -/
def conversionError (repat : Text) (pos : Nat) (c : Char) : Text :=
  "error converting regex(".toList ++ cstr repat ++ ") to wildmat on char ".toList ++ Nat.toDigits 10 pos ++ ": ".toList ++ [c]

/-- What is added when the end of the expression is reached. -/
def atEnd (rest : Text) : Text := if rest.isEmpty then ['*'] else []

mutual
/-- The loop of `regex2wildmat`, from `pos` on. -/
def regex2wildmatLoop (repat : Text) (ignorecase : Bool) : Text → Nat → Text → Except Text Text
  | [], _, wildmat => .ok wildmat
  | c :: rest, pos, wildmat =>
    if c = '.' then
      match rest with
      | '*' :: rest => regex2wildmatLoop repat ignorecase rest (pos + 2) (wildmat ++ '*' :: atEnd rest)
      | rest => regex2wildmatLoop repat ignorecase rest (pos + 1) (wildmat ++ '?' :: atEnd rest)
    else if c = '\\' then
      match rest with
      | [] => .error (conversionError repat (pos + 1) c)
      | nc :: rest =>
        if nc = '*' || nc = '?' || nc = '[' || nc = ']' then
          regex2wildmatLoop repat ignorecase rest (pos + 2) (wildmat ++ c :: nc :: atEnd rest)
        else if nc = '(' || nc = ')' || nc = '{' || nc = '}' || nc = '|' || nc = '.' then
          regex2wildmatLoop repat ignorecase rest (pos + 2) (wildmat ++ nc :: atEnd rest)
        else if nc = '<' || nc = '>' || nc.isAlphanum then .error (conversionError repat (pos + 1) c)
        else regex2wildmatLoop repat ignorecase rest (pos + 2) (wildmat ++ nc :: atEnd rest)
    else if c = '?' || c = '*' || c = '+' || c = '(' || c = ')' || c = '{' || c = '}' || c = '|' then
      .error (conversionError repat (pos + 1) c)
    else if rest.isEmpty && c = '$' then .ok wildmat
    else if ignorecase && c.isAlpha then
      regex2wildmatLoop repat ignorecase rest (pos + 1) (wildmat ++ '[' :: c.toLower :: c.toUpper :: ']' :: atEnd rest)
    else if c = '[' then regex2wildmatSet repat ignorecase true '\xff' rest (pos + 1) (wildmat ++ ['['])
    else regex2wildmatLoop repat ignorecase rest (pos + 1) (wildmat ++ c :: atEnd rest)

/-- The loop over a set and what follows it; `nc` is the last character, and `first` says that there is none yet. -/
def regex2wildmatSet (repat : Text) (ignorecase first : Bool) (nc : Char) : Text → Nat → Text → Except Text Text
  | [], pos, wildmat => if nc ≠ ']' then .error (conversionError repat pos nc) else .ok (wildmat ++ ['*'])
  | nc :: rest, pos, wildmat =>
    if nc = ']' && !first then regex2wildmatLoop repat ignorecase rest (pos + 1) (wildmat ++ ']' :: atEnd rest)
    else if ignorecase && nc.isAlpha then
      regex2wildmatSet repat ignorecase false nc rest (pos + 1) (wildmat ++ [nc.toLower, nc.toUpper])
    else regex2wildmatSet repat ignorecase false nc rest (pos + 1) (wildmat ++ [nc])
end

/-- `regex2wildmat`: the pattern, or the text of what is thrown. -/
def regex2wildmat (repat : Text) (ignorecase : Bool) : Except Text Text :=
  match repat with
  | [] => .ok ['*']
  | '^' :: rest => regex2wildmatLoop repat ignorecase rest 1 []
  | repat => regex2wildmatLoop repat ignorecase repat 0 ['*']

example : regex2wildmat "a.*[\\]]$".toList true = .ok "*[aA]*[\\]]".toList := by decide +kernel

end Nget
