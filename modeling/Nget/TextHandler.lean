import Nget.Buffy

/-! What becomes of the text of a message (`texthandler.cc`): the header of its first part, what was decoded of it and what
    was noted of the decoding go to a text file of their own or to the end of an mbox. -/

namespace Nget
open CString

inductive TextHandling where
  | files
  | mbox
  | ignore
deriving DecidableEq

/-- `TextHandler`, with the content of the file `firsttempfn` in place of its name. -/
structure TextHandler where
  texthandling : TextHandling
  save_text_for_binaries : Bool
  firsttemp : Text
  info : List Text := []
  infocount : Nat := 0
  decodeinfocount : Nat := 0
  save_whole_tempfile : Bool := false

/-- `^>*From `, which has no other place to begin than the first character that is not a `>`. -/
def From_re (str : Text) : Bool := "From ".toList.isPrefixOf (str.dropWhile (· = '>'))

def writeline (str : Text) (escape_From : Bool) : Text :=
  (if escape_From && From_re (cstr str) then ['>'] else []) ++ cstr str

namespace TextHandler

def set_save_whole_tempfile (th : TextHandler) (flag : Bool) : TextHandler := { th with save_whole_tempfile := flag }

def addinfo (th : TextHandler) (str : Text) : TextHandler :=
  { th with info := th.info ++ [str], infocount := th.infocount + 1 }

def adddecodeinfo (th : TextHandler) (str : Text) : TextHandler :=
  { th with info := th.info ++ ["[".toList ++ str ++ "]\n".toList], decodeinfocount := th.decodeinfocount + 1 }

/-- What is written of a header: one whose content type is not plain text gets another name. -/
def writeheader (hs : Text) (escape_From : Bool) : Text :=
  if hs.take 13 = "Content-Type:".toList && (hs.drop 14).take 10 ≠ "text/plain".toList then
    writeline "Content-Type: text/plain\n".toList escape_From ++ writeline ("X-NGet-Original-".toList ++ hs) escape_From
  else writeline hs escape_From

/-- The loop over the header, up to the empty line: what it writes, the information from `ii` on, and what is left of the
    file. Every turn reads a character at least. -/
def headerLoop (escape_From : Bool) : Nat → Text → List Text → Bool → Text × List Text × Text
  | 0, headerf, ii, _ => ([], ii, headerf)
  | fuel + 1, headerf, ii, dupeheaders =>
    if headerf = [] then ([], ii, [])
    else
      let (rbuf, headerf) := bgetsp headerf
      let hs := rbuf ++ ['\n']
      let dupeheaders := dupeheaders && ii.head? = some hs
      let ii := if dupeheaders then ii.tail else ii
      if rbuf = [] then (writeheader hs escape_From, ii, headerf)
      else
        let (out, ii, headerf) := headerLoop escape_From fuel headerf ii dupeheaders
        (writeheader hs escape_From ++ out, ii, headerf)

/-- The loop over what is behind the header. -/
def bodyLoop (escape_From : Bool) : Nat → Text → Text
  | 0, _ => []
  | fuel + 1, headerf =>
    if headerf = [] then []
    else
      let (rbuf, headerf) := bgetsp headerf
      writeline (rbuf ++ ['\n']) escape_From ++ bodyLoop escape_From fuel headerf

def writeinfo (th : TextHandler) (escape_From : Bool) : Text :=
  let (out, ii, headerf) := headerLoop escape_From th.firsttemp.length th.firsttemp th.info true
  out ++ (if th.save_whole_tempfile then bodyLoop escape_From headerf.length headerf else []) ++
    ii.flatMap (writeline · escape_From)

end TextHandler

/-- The local time, as `localtime` gives it. -/
structure Tm where
  tm_sec : Nat
  tm_min : Nat
  tm_hour : Nat
  tm_mday : Nat
  tm_mon : Fin 12
  tm_year : Int32
  tm_wday : Fin 7

def dayName (tm_wday : Fin 7) : Text := (["Sun", "Mon", "Tue", "Wed", "Thu", "Fri", "Sat"].get tm_wday).toList

def monthName (tm_mon : Fin 12) : Text :=
  (["Jan", "Feb", "Mar", "Apr", "May", "Jun", "Jul", "Aug", "Sep", "Oct", "Nov", "Dec"].get tm_mon).toList

/-- `%.2d`. -/
def twoDigits (n : Nat) : Text := (Nat.toDigits 10 n).leftpad 2 '0'

/-- A time as `ctime` prints it, `%.3s %.3s%3d %.2d:%.2d:%.2d %d`. -/
def timeText (tm : Tm) : Text :=
  dayName tm.tm_wday ++ ' ' :: monthName tm.tm_mon ++ (Nat.toDigits 10 tm.tm_mday).leftpad 3 ' ' ++
    ' ' :: twoDigits tm.tm_hour ++ ':' :: twoDigits tm.tm_min ++ ':' :: twoDigits tm.tm_sec ++
    ' ' :: printInt (1900 + tm.tm_year)

/-- `ctime` of the time that is `tm` here. -/
def ctime (tm : Tm) : Text := timeText tm ++ ['\n']

/-- The version that the program is configured with. -/
def packageVersion : Text := "0.27.1".toList

/-- What `save` works on: the mbox, if it is there, the text files that were made, and how many messages were fine. -/
structure TextFiles where
  mbox : Option Text := none
  texts : List Text := []
  plaintext_ok : Nat := 0

namespace TextHandler

/-- The separator that `save` writes in front of a message. -/
def separator (curtime : Tm) : Text := "From nget-".toList ++ packageVersion ++ [' '] ++ ctime curtime

/-- `save`, at the time that is `curtime` here. -/
def save (th : TextHandler) (curtime : Tm) (w : TextFiles) : TextFiles :=
  if th.infocount = 0 && th.decodeinfocount ≠ 0 && !th.save_text_for_binaries && !th.save_whole_tempfile then w
  else
    let w := if th.infocount ≠ 0 || th.decodeinfocount = 0 || th.save_whole_tempfile then
        { w with plaintext_ok := w.plaintext_ok + 1 }
      else w
    match th.texthandling with
    | .files => { w with texts := w.texts ++ [th.writeinfo false] }
    | .mbox => { w with mbox := some (w.mbox.getD [] ++ (separator curtime ++ th.writeinfo true ++ ['\n'])) }
    | .ignore => w

/-- What is done with a handler before it saves: `uu_info_callback`, `adddecodeinfo` from a C string, and
    `set_save_whole_tempfile`. -/
inductive Call where
  | info (i : Text)
  | decodeinfo (m : Text)
  | saveWholeTempfile (flag : Bool)

def call (th : TextHandler) : Call → TextHandler
  | .info i => th.addinfo (cstr i)
  | .decodeinfo m => th.adddecodeinfo (cstr m)
  | .saveWholeTempfile flag => th.set_save_whole_tempfile flag

end TextHandler

/-- A message whose text is saved: how its handler is made, what is done with it, and when it saves. -/
structure TextMessage where
  texthandling : TextHandling
  save_text_for_binaries : Bool
  firsttemp : Text
  calls : List TextHandler.Call
  curtime : Tm

namespace TextMessage

def handler (m : TextMessage) : TextHandler :=
  m.calls.foldl TextHandler.call ⟨m.texthandling, m.save_text_for_binaries, m.firsttemp, [], 0, 0, false⟩

def saves (ms : List TextMessage) (w : TextFiles) : TextFiles := ms.foldl (fun w m => m.handler.save m.curtime w) w

end TextMessage
end Nget
