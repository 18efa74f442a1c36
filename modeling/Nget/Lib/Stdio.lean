import Mathlib.Data.List.Basic

/-! A stream of the C library that is open for update: the bytes of the file, the position, and the flag
    that a read at the end sets. -/

structure Stdio where
  bytes : List Char
  pos : Nat := 0
  eof : Bool := false
deriving DecidableEq

namespace Stdio

/-- What `fgets` takes from these bytes when the buffer has room for `n` more. -/
def takeLine : Nat → List Char → List Char
  | 0, _ => []
  | _, [] => []
  | n + 1, c :: cs => if c = '\n' then [c] else c :: takeLine n cs

/-- `fgets(buf, len, f)`; none is the null pointer. The flag is set when the read met the end. -/
def fgets (len : Nat) (f : Stdio) : Option (List Char) × Stdio :=
  let line := takeLine (len - 1) (f.bytes.drop f.pos)
  let met := line.getLast? ≠ some '\n' && line.length < len - 1
  (if line.isEmpty then none else some line, { f with pos := f.pos + line.length, eof := f.eof || met })

/-- `fseek(f, pos, SEEK_SET)`. -/
def fseek (pos : Nat) (f : Stdio) : Stdio := { f with pos, eof := false }

/-- `fputc`. -/
def fputc (c : Char) (f : Stdio) : Stdio :=
  { f with bytes := f.bytes.take f.pos ++ c :: f.bytes.drop (f.pos + 1), pos := f.pos + 1 }

section
variable {pre line rest : List Char} {len : Nat}

theorem takeLine_append (hline : '\n' ∉ line) :
    ∀ {n : Nat}, line.length < n → takeLine n (line ++ '\n' :: rest) = line ++ ['\n'] := by
  induction line with
  | nil =>
    intro n hn
    obtain ⟨n, rfl⟩ := Nat.exists_eq_add_of_lt hn
    simp [takeLine]
  | cons c line ih =>
    intro n hn
    obtain ⟨n, rfl⟩ := Nat.exists_eq_add_of_lt hn
    simp only [List.mem_cons, not_or] at hline
    rw [List.cons_append, takeLine, if_neg (Ne.symm hline.1), ih hline.2 (by simp; omega), List.cons_append]

/-- The stream between what was read and what is still to be read. -/
def between (pre rest : List Char) : Stdio := { bytes := pre ++ rest, pos := pre.length }

@[simp] theorem between_bytes : (between pre rest).bytes = pre ++ rest := rfl

@[simp] theorem between_pos : (between pre rest).pos = pre.length := rfl

@[simp] theorem between_eof : (between pre rest).eof = false := rfl

/-- A line that fits the buffer is read with its line feed. -/
theorem fgets_line (hline : '\n' ∉ line) (hlen : line.length + 1 < len) :
    fgets len (between pre (line ++ '\n' :: rest)) = (some (line ++ ['\n']), between (pre ++ (line ++ ['\n'])) rest) := by
  have htake : takeLine (len - 1) (line ++ '\n' :: rest) = line ++ ['\n'] := takeLine_append hline (by omega)
  simp [fgets, between, htake]

/-- At the end there is nothing to read. -/
theorem fgets_end (hlen : 1 < len) : fgets len (between pre []) = (none, { between pre [] with eof := true }) := by
  obtain ⟨n, hn⟩ : ∃ n, len - 1 = n + 1 := ⟨len - 2, by omega⟩
  simp [fgets, between, hn, takeLine]

/-- A byte that was read is replaced, and the stream is then where it was. -/
theorem fputc_between {c d : Char} :
    (((between (pre ++ d :: line) rest).fseek pre.length).fputc c).fseek (between (pre ++ d :: line) rest).pos =
      between (pre ++ c :: line) rest := by
  simp [fputc, fseek, between, List.drop_append, List.drop_of_length_le]

end
end Stdio
