import Nget.Buffy
import Nget.Lib.SortedMap

/-! The configuration file (`cfgfile.cc`): sections in braces with items `key=value`. -/

namespace Nget
open CString

/-- What `load` takes a line for, by its first characters that are not blanks. -/
inductive CfgLine where
  | empty
  | sectionEnd
  | sectionStart (key : Text)
  | comment
  | item (key val : Text)
  | invalid (buf : Text)
deriving DecidableEq

/-- The branches of `load`. -/
def cfgLine (line : Text) : CfgLine :=
  match line.dropWhile (fun c => c = ' ' || c = '\t') with
  | [] => .empty
  | '}' :: _ => .sectionEnd
  | '{' :: key => .sectionStart key
  | '#' :: _ => .comment
  | '/' :: '/' :: _ => .comment
  | buf => if '=' ∈ buf then .item (buf.takeWhile (· ≠ '=')) (buf.dropWhile (· ≠ '=')).tail else .invalid buf

/-- `CfgItem`: a text `val` at `key` in the section named `loc`. -/
structure CfgItem where
  loc : Text
  key : Text
  val : Text
deriving DecidableEq

/-- `CfgSection`, with its maps in the order of their keys. -/
inductive CfgSection where
  | mk (loc key : Text) (items : List (Text × CfgItem)) (sections : List (Text × CfgSection))

namespace CfgSection

def loc : CfgSection → Text
  | mk loc _ _ _ => loc

def key : CfgSection → Text
  | mk _ key _ _ => key

def items : CfgSection → List (Text × CfgItem)
  | mk _ _ items _ => items

def sections : CfgSection → List (Text × CfgSection)
  | mk _ _ _ sections => sections

def name (s : CfgSection) : Text := s.loc ++ '/' :: s.key

def getitem (s : CfgSection) (name : Text) : Option CfgItem := (s.items.find? fun e => e.1 = name).map (·.2)

def getsection (s : CfgSection) (name : Text) : Option CfgSection := (s.sections.find? fun e => e.1 = name).map (·.2)

end CfgSection

/-- What is reported of a file. -/
inductive CfgError where
  | duplicateSection (name : Text)
  | duplicateItem (name : Text)
  | invalidLine (file buf : Text)
  | unbalanced (file : Text) (level : Int)
deriving DecidableEq

/-- The messages. -/
def CfgError.text : CfgError → Text
  | duplicateSection name => name ++ ": duplicate section".toList
  | duplicateItem name => name ++ ": duplicate item".toList
  | invalidLine file buf => file ++ ": invalid line '".toList ++ buf ++ "'".toList
  | unbalanced file level =>
    file ++ ": unbalanced \x7b\x7d's: level=".toList ++ (if 0 ≤ level then "+".toList else []) ++ (toString level).toList

namespace CfgSection

/-- The item or the section found or made in the maps. -/
def setItem (s : CfgSection) (i : CfgItem) : CfgSection := mk s.loc s.key (SortedMap.assignList i.key i s.items) s.sections

def setSection (s sub : CfgSection) : CfgSection := mk s.loc s.key s.items (SortedMap.assignList sub.key sub s.sections)

/-- `load`, for so many rounds: the section with what it reads, the file behind that, the level, and what is
    reported. It gives nothing when the rounds do not suffice. -/
def load (file : Text) : Nat → CfgSection → Text → Int → List CfgError → Option (CfgSection × Text × Int × List CfgError)
  | 0, _, _, _, _ => none
  | rounds + 1, s, f, level, errs =>
    -- `bgets` has swallowed no byte.
    if f.isEmpty then some (s, f, level, errs)
    else
      let (line, f) := bgetsp f
      match cfgLine line with
      | .empty => load file rounds s f level errs
      | .sectionEnd => some (s, f, level - 1, errs)
      | .sectionStart key => do
        let (sub, f, level, errs) ← load file rounds (mk s.name key [] []) f (level + 1) errs
        let errs := if (s.getsection sub.key).isSome then errs ++ [.duplicateSection sub.name] else errs
        load file rounds (s.setSection sub) f level errs
      | .comment => load file rounds s f level errs
      | .item key val =>
        let i : CfgItem := ⟨s.name, key, val⟩
        let errs := if (s.getitem key).isSome then errs ++ [.duplicateItem (i.loc ++ '/' :: i.key)] else errs
        load file rounds (s.setItem i) f level errs
      | .invalid buf => load file rounds s f level (errs ++ [.invalidLine file buf])

/-- `CfgSection(filename)` of a file of text `f`: the sections, and what is reported. -/
def ofFile (filename : Text) (rounds : Nat) (f : Text) : Option (CfgSection × List CfgError) :=
  (load filename rounds (mk filename [] [] []) f 0 []).map fun (s, _, level, errs) =>
    (s, if level ≠ 0 then errs ++ [.unbalanced filename level] else errs)

end CfgSection
end Nget
