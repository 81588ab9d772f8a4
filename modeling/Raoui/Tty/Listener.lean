import Raoui.Base

/-!
# Raoui.Tty.Listener

`lib/tty_listener.ml`: the keys, and how they are read.

A key can take many reads. `Reading` says which of them the code stands before, `Reading.feed` what
it does with the byte, so that a reader can be stopped at any of them.

* `decode`: the keys of a whole input, read undisturbed.
-/

namespace Raoui
namespace Tty

inductive Key where
  | char (s : Bytes)
  | ctrl (c : Char)
  | up
  | down
  | left
  | right
  | home
  | endKey
  | delete
  | backspace
  | tab
  | enter
  | escape
  | paste (s : Bytes)
  | other (name : String)
  | unknown (s : Bytes)
  deriving DecidableEq, Repr

/-- The read the code is blocked in. -/
inductive Reading where
  /-- The first byte, in `await_input`. -/
  | start
  /-- `read_utf8_char`: the bytes so far and how many are missing. -/
  | utf8 (read : Bytes) (missing : Nat)
  | escape
  | ss3
  /-- `read_until_final`: the parameter bytes so far. -/
  | csi (params : Bytes)
  /-- `loop` of `read_bracketed_paste`. -/
  | paste (buf : Bytes)
  /-- `check_end`. -/
  | pasteEnd (buf acc : Bytes)
  deriving DecidableEq, Repr

inductive Progress where
  | key (k : Key)
  | more (r : Reading)
  deriving DecidableEq, Repr

/-- `utf8_continuation_bytes`. -/
def utf8ContinuationBytes (b : UInt8) : Nat :=
  if b &&& 0x80 = 0 then 0
  else if b &&& 0xE0 = 0xC0 then 1
  else if b &&& 0xF0 = 0xE0 then 2
  else if b &&& 0xF8 = 0xF0 then 3
  else 0

def readUtf8Char (leading : UInt8) : Progress :=
  match utf8ContinuationBytes leading with
  | 0 => .key (.char [leading])
  | n + 1 => .more (.utf8 [leading] (n + 1))

def pasteExpected : Bytes := [27, 91, 50, 48, 49, 126]

def isCsiFinal (c : UInt8) : Bool := (65 ≤ c && c ≤ 90) || (97 ≤ c && c ≤ 122) || c = 126

/-- What `parse_csi_sequence` makes of the parameters and the final byte. -/
def csiKey (params : Bytes) (final : UInt8) : Progress :=
  if final = 65 then .key .up
  else if final = 66 then .key .down
  else if final = 67 then .key .right
  else if final = 68 then .key .left
  else if final = 72 then .key .home
  else if final = 70 then .key .endKey
  else if final = 126 ∧ params = bytes "3" then .key .delete
  else if final = 126 ∧ params = bytes "200" then .more (.paste [])
  else if final = 126 ∧ params = bytes "27;5;13" then .key (.ctrl '\r')
  else .key (.unknown ([27, 91] ++ params ++ [final]))

def ss3Key (c : UInt8) : Key :=
  if c = 65 then .up
  else if c = 66 then .down
  else if c = 67 then .right
  else if c = 68 then .left
  else if c = 72 then .home
  else if c = 70 then .endKey
  else .unknown [27, 79, c]

def parseEscape (c : UInt8) : Progress :=
  if c = 91 then .more (.csi [])
  else if c = 79 then .more .ss3
  else if c = 10 then .key (.ctrl '\r')
  else if c = 98 then .key (.other "last word")
  else if c = 102 then .key (.other "next word")
  else .key (.unknown [27, c])

def awaitInput (c : UInt8) : Progress :=
  if c = 27 then .more .escape
  else if c = 127 then .key .backspace
  else if c = 9 then .key .tab
  else if c = 13 ∨ c = 10 then .key .enter
  else if c < 32 then .key (.ctrl (Char.ofNat (c.toNat + 96)))
  else readUtf8Char c

/-- What the code does with the result of a read: none is the end of the file, or the timeout. -/
def Reading.feed : Reading → Option UInt8 → Progress
  | .start, none => .key .escape
  | .start, some c => awaitInput c
  | .utf8 read _, none => .key (.char read)
  | .utf8 read missing, some c =>
    if missing ≤ 1 then .key (.char (read ++ [c])) else .more (.utf8 (read ++ [c]) (missing - 1))
  | .escape, none => .key .escape
  | .escape, some c => parseEscape c
  | .ss3, none => .key (.unknown [27, 79])
  | .ss3, some c => .key (ss3Key c)
  | .csi params, none => .key (.unknown ([27, 91] ++ params))
  | .csi params, some c => if isCsiFinal c then csiKey params c else .more (.csi (params ++ [c]))
  | .paste buf, none => .key (.paste buf)
  | .paste buf, some c => if c = 27 then .more (.pasteEnd buf [27]) else .more (.paste (buf ++ [c]))
  | .pasteEnd buf acc, none => .key (.paste (buf ++ acc))
  | .pasteEnd buf acc, some c =>
    let next := acc ++ [c]
    if pasteExpected[acc.length]? = some c then
      if next = pasteExpected then .key (.paste buf)
      else if next.length ≥ 6 then .more (.paste (buf ++ next))
      else .more (.pasteEnd buf next)
    else .more (.paste (buf ++ next))

/-- `read_byte_timeout`: the reads that give up after the escape timeout. -/
def Reading.timed : Reading → Bool
  | .escape | .ss3 => true
  | _ => false

/-- What comes from the terminal: a byte, a pause longer than the escape timeout, or the end. -/
inductive Item where
  | byte (c : UInt8)
  | pause
  | eof
  deriving DecidableEq, Repr

def Reading.take (r : Reading) : Item → Progress
  | .byte c => r.feed (some c)
  | .pause => if r.timed then r.feed none else .more r
  | .eof => r.feed none

/-- The keys of an input read undisturbed, and where the reader stands behind it. -/
def decode : Reading → List Item → List Key × Reading
  | r, [] => ([], r)
  | r, item :: rest =>
    match r.take item with
    | .key k => (k :: (decode .start rest).1, (decode .start rest).2)
    | .more r' => decode r' rest

theorem decode_append (r : Reading) (l l' : List Item) :
    decode r (l ++ l') =
      ((decode r l).1 ++ (decode (decode r l).2 l').1, (decode (decode r l).2 l').2) := by
  induction l generalizing r with
  | nil => rfl
  | cons item rest ih =>
    rw [List.cons_append, decode, decode]
    cases r.take item with
    | key k =>
      dsimp only
      rw [ih, List.cons_append]
    | more r' => exact ih r'

end Tty
end Raoui
