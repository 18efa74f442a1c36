import Nget.CString

/-! The arguments of a line of a list file (`argparser.cc`). -/

namespace Nget
open CString

/-- The loop of `parseargs` and what follows it: whether it throws, and the arguments with those that are added. -/
def parseargsLoop (ignorecomments : Bool) : Text → Text → Option Char → Bool → List Text → Except Text Unit × List Text
  | [], curpart, quote, esc, argl =>
    match quote with
    | some quote => (.error ("unterminated quote (".toList ++ quote :: [')']), argl)
    | none =>
      if esc then (.error "expression ended with escape".toList, argl)
      else (.ok (), if curpart.isEmpty then argl else argl ++ [curpart])
  | cur :: rest, curpart, quote, esc, argl =>
    if esc then
      if cur = '"' || cur = '\'' then parseargsLoop ignorecomments rest (curpart ++ [cur]) quote false argl
      else parseargsLoop ignorecomments rest (curpart ++ ['\\', cur]) quote false argl
    else if isspace cur && quote.isNone then
      if curpart.isEmpty then parseargsLoop ignorecomments rest curpart quote false argl
      else parseargsLoop ignorecomments rest [] quote false (argl ++ [curpart])
    else if ignorecomments && quote.isNone && cur = '#' && curpart.isEmpty then (.ok (), argl)
    else if cur = '\\' then parseargsLoop ignorecomments rest curpart quote true argl
    else if cur = '"' || cur = '\'' then
      if quote = some cur then parseargsLoop ignorecomments rest curpart none false argl
      else if quote.isNone then parseargsLoop ignorecomments rest curpart (some cur) false argl
      else parseargsLoop ignorecomments rest (curpart ++ [cur]) quote false argl
    else parseargsLoop ignorecomments rest (curpart ++ [cur]) quote false argl

/-- `parseargs`. -/
def parseargs (argl : List Text) (optarg : Text) (ignorecomments : Bool) : Except Text Unit × List Text :=
  parseargsLoop ignorecomments (cstr optarg) [] none false argl

example : parseargs [] "-g a.b -r '\\.zip$' # all".toList true =
  (.ok (), ["-g", "a.b", "-r", "\\.zip$"].map String.toList) := by
  decide

end Nget
