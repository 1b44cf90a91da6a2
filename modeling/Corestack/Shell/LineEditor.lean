import Corestack.Memory
import Corestack.Shell.History
import Corestack.Text.Scan

/-! # The line editor of the shell

`line_read` keeps a line in the buffer of its caller and changes it key by key. An access
of the buffer that is not within it, and a difference of two `size_t` that would be
negative, are the result `none`.
-/

namespace Corestack.Shell

open Text

/-- The size of an array, which fits a `ptrdiff_t`. -/
structure Capacity where
  val : Nat
  pos : 1 ≤ val
  lt : val < 2 ^ 63

/-- What `tab_complete` adds to the only match, and whether that is a directory. -/
structure Completion where
  text : List Char
  slash : Bool
  isText : '\x00' ∉ text
  length_lt : text.length < 512

/-- What `line_read` makes of the bytes of a key. -/
inductive Stroke
  | newline
  | backspace
  | eot
  | up
  | down
  | right
  | left
  | delete
  | wordRight
  | wordLeft
  | ignored
  | tab
  | char (c : Char)

/-- The printing characters of the C locale. -/
def isPrint (c : Char) : Bool := decide (' ' ≤ c) && decide (c ≤ '~')

def isAlnum (c : Char) : Bool := c.isAlphanum

/-- What follows an escape. If that is not known everything is read up to a character that does not
print. -/
def readEscape : List Char → Option (Stroke × List Char)
  | '[' :: 'A' :: s => some (.up, s)
  | '[' :: 'B' :: s => some (.down, s)
  | '[' :: 'C' :: s => some (.right, s)
  | '[' :: 'D' :: s => some (.left, s)
  | '[' :: '3' :: c :: s => some (if c = '~' then .delete else .ignored, s)
  | '[' :: '1' :: c₃ :: c₄ :: c₅ :: s =>
    some (if c₃ = ';' ∧ c₄ = '5' then
        if c₅ = 'C' then .wordRight else if c₅ = 'D' then .wordLeft else .ignored
      else .ignored, s)
  | ['[', '3'] => none
  | '[' :: '1' :: _ => none
  | _ :: _ :: s => some (.ignored, (s.dropWhile isPrint).tail)
  | _ => none

/-- The next key and the bytes behind it, unless the input ends. -/
def readKey : List Char → Option (Stroke × List Char)
  | [] => none
  | c :: s =>
    if c = '\n' then some (.newline, s)
    else if c = '\x7f' ∨ c = '\x08' then some (.backspace, s)
    else if c = '\x04' then some (.eot, s)
    else if c = '\x1b' then readEscape s
    else if c = '\t' then some (.tab, s)
    else some (.char c, s)

/-- A difference of `size_t`, where it does not wrap. -/
def sub (a b : Nat) : Option Nat := if b ≤ a then some (a - b) else none

/-- What `snprintf` returns for `%s`: an `int`, which is negative if the text is too long for it. -/
def snprintfResult (s : List Char) : Int := if s.length < 2 ^ 31 then s.length else -1

/-- The variables of `line_read`, and those of the history. -/
structure Editor (cap : Capacity) where
  buf : Memory Char cap.val
  len : Nat
  pos : Nat
  hist : Hist

/-- The loop goes on, or `line_read` returns: with a line and its length, or with -1. -/
inductive Progress (cap : Capacity)
  | reading (e : Editor cap)
  | returned (hist : Hist) (line : Option (List Char × Nat))

namespace Editor

variable {cap : Capacity}

def start (hist : Hist) (buf : Memory Char cap.val) : Editor cap := ⟨buf, 0, 0, hist⟩

def backspace (e : Editor cap) : Option (Editor cap) :=
  if 0 < e.pos then do
    let dst ← sub e.pos 1
    let n ← sub e.len e.pos
    let buf ← e.buf.move dst e.pos n
    let len ← sub e.len 1
    let pos ← sub e.pos 1
    some { e with buf := buf, len := len, pos := pos }
  else some e

/-- `len` becomes what `snprintf` returns, as a `size_t`. -/
def load (e : Editor cap) (h : List Char) : Option (Editor cap) := do
  let buf ← e.buf.write 0 (h.take (cap.val - 1) ++ ['\x00'])
  let len := (snprintfResult h % 2 ^ 64).toNat
  some { e with buf := buf, len := len, pos := len }

/-- With what `hist_up` or `hist_down` returned. -/
def answered (e : Editor cap) : Hist × Option (List Char) → Option (Editor cap)
  | (hist, none) => some { e with hist := hist }
  | (hist, some h) => { e with hist := hist }.load h

def up (e : Editor cap) : Option (Editor cap) := e.answered e.hist.histUp

def down (e : Editor cap) : Option (Editor cap) := e.answered e.hist.histDown

def right (e : Editor cap) : Editor cap := if e.pos < e.len then { e with pos := e.pos + 1 } else e

def left (e : Editor cap) : Editor cap := if 0 < e.pos then { e with pos := e.pos - 1 } else e

def delete (e : Editor cap) : Option (Editor cap) :=
  if e.pos < e.len then do
    let n ← sub e.len e.pos
    let n ← sub n 1
    let buf ← e.buf.move e.pos (e.pos + 1) n
    let len ← sub e.len 1
    let buf ← buf.write len ['\x00']
    some { e with buf := buf, len := len }
  else some e

/-- Each of the two loops reads the buffer while `pos < len`. -/
def wordRight (e : Editor cap) : Option (Editor cap) := do
  let pos ← e.buf.scanRight isAlnum (e.len - e.pos) e.pos
  let pos ← e.buf.scanRight (fun c => !isAlnum c) (e.len - pos) pos
  some { e with pos := pos }

def wordLeft (e : Editor cap) : Option (Editor cap) := do
  let pos := if 0 < e.pos then e.pos - 1 else e.pos
  let pos ← e.buf.scanLeft isAlnum pos
  let pos ← e.buf.scanLeft (fun c => !isAlnum c) pos
  some { e with pos := pos }

def writeSlash (completion : Completion) (buf : Memory Char cap.val) (i : Nat) :
    Option (Memory Char cap.val) :=
  if completion.slash then buf.write i ['/'] else some buf

/-- The end of `tab_complete`, when there is one match. -/
def complete (e : Editor cap) (completion : Completion) : Option (Editor cap) :=
  let compLen := completion.text.length
  let extra := compLen + if completion.slash then 1 else 0
  if cap.val ≤ e.len + extra then some e
  else do
    let n ← sub e.len e.pos
    let buf ← e.buf.move (e.pos + extra) e.pos n
    let buf ← buf.write e.pos completion.text
    let buf ← writeSlash completion buf (e.pos + compLen)
    let buf ← buf.write (e.len + extra) ['\x00']
    some { e with buf := buf, len := e.len + extra, pos := e.pos + extra }

def tabComplete (e : Editor cap) : Option Completion → Option (Editor cap)
  | none => some e
  | some completion => e.complete completion

def char (e : Editor cap) (c : Char) : Option (Editor cap) :=
  if isPrint c ∧ e.len < cap.val - 1 then do
    let n ← sub e.len e.pos
    let buf ← e.buf.move (e.pos + 1) e.pos n
    let buf ← buf.write e.pos [c]
    let buf ← buf.write (e.len + 1) ['\x00']
    some { e with buf := buf, len := e.len + 1, pos := e.pos + 1 }
  else some e

/-- The line is what is in the buffer up to its terminator. -/
def newline (e : Editor cap) : Option (Progress cap) := do
  let buf ← e.buf.write e.len ['\x00']
  let out := cString buf.cells
  some (.returned (e.hist.history out) (some (out, e.len)))

/-- `completion` is what `tab_complete` finds, if it is called. -/
def stroke (e : Editor cap) (completion : Option Completion) : Stroke → Option (Progress cap)
  | .newline => e.newline
  | .backspace => e.backspace.map .reading
  | .eot => some (if e.len = 0 then .returned e.hist none else .reading e)
  | .up => e.up.map .reading
  | .down => e.down.map .reading
  | .right => some (.reading e.right)
  | .left => some (.reading e.left)
  | .delete => e.delete.map .reading
  | .wordRight => e.wordRight.map .reading
  | .wordLeft => e.wordLeft.map .reading
  | .ignored => some (.reading e)
  | .tab => (e.tabComplete completion).map .reading
  | .char c => (e.char c).map .reading

/-- One turn of the loop of `line_read`, and the bytes that are left. -/
def turn (e : Editor cap) (completion : Option Completion) (input : List Char) :
    Option (Progress cap × List Char) :=
  match readKey input with
  | none => some (.returned e.hist none, [])
  | some (s, rest) => (e.stroke completion s).map fun p => (p, rest)

end Editor

end Corestack.Shell
