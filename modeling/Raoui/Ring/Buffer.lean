import Mathlib.Algebra.GroupWithZero.Nat
import Raoui.Lib.Cyclic
import Raoui.Lib.Loop

/-!
# Raoui.Ring.Buffer

The byte ring of `c_ffi/ring_buffer.c`. The caller's lock makes every public function one atomic
step, so the functions are plain state transformers. `buf` is the memory `malloc` returned, with
whatever it held; `size_t` positions are `Nat`, the two statistics are `uint64_t` and wrap.

The eviction loops run on `Loop.run` with one round of fuel more than there are bytes in use;
`none` would mean that a loop does not end.
-/

namespace Raoui
namespace Ring

/-- `rb_frame_header_t`, packed: kind, flags and a little-endian 32-bit length. -/
structure Header where
  kind : UInt8
  flags : UInt8
  len : UInt32
  deriving DecidableEq, Repr

/-- `RB_FRAME_HEADER_SIZE`. -/
def headerSize : Nat := 6

/-- `RB_FLAG_TRUNCATED`. -/
def flagTruncated : UInt8 := 1

def Header.toBytes (h : Header) : List UInt8 :=
  [h.kind, h.flags,
    UInt8.ofNat h.len.toNat, UInt8.ofNat (h.len.toNat / 256),
    UInt8.ofNat (h.len.toNat / 65536), UInt8.ofNat (h.len.toNat / 16777216)]

def Header.ofBytes (b : List UInt8) : Header where
  kind := b.getD 0 0
  flags := b.getD 1 0
  len := UInt32.ofNat ((b.getD 2 0).toNat + 256 * (b.getD 3 0).toNat +
    65536 * (b.getD 4 0).toNat + 16777216 * (b.getD 5 0).toNat)

/-- `ring_buffer_t` without its lock. -/
structure RingBuffer where
  buf : List UInt8
  capacity : Nat
  head : Nat
  tail : Nat
  used : Nat
  droppedMessages : UInt64
  droppedBytes : UInt64
  deriving DecidableEq, Repr

/-- What `rb_push` is handed: `len` bytes, `len` being a `uint32_t`. -/
structure Payload where
  bytes : List UInt8
  len_lt : bytes.length < 2 ^ 32

/-- `rb_init` over the block `mem` that `malloc` returned; `none` is its `-1`. -/
def rbInit (mem : List UInt8) : Option RingBuffer :=
  if mem.length < headerSize + 1 then none
  else some { buf := mem, capacity := mem.length, head := 0, tail := 0, used := 0,
              droppedMessages := 0, droppedBytes := 0 }

def rbReset (rb : RingBuffer) : RingBuffer :=
  { rb with head := 0, tail := 0, used := 0, droppedMessages := 0, droppedBytes := 0 }

def ringWrite (rb : RingBuffer) (src : List UInt8) : RingBuffer :=
  let n := src.length
  let first := rb.capacity - rb.head
  let buf :=
    if first ≥ n then Cyclic.blit rb.buf rb.head src
    else Cyclic.blit (Cyclic.blit rb.buf rb.head (src.take first)) 0 (src.drop first)
  { rb with buf := buf, head := (rb.head + n) % rb.capacity, used := rb.used + n }

def ringPeek (rb : RingBuffer) (n : Nat) : List UInt8 :=
  let first := rb.capacity - rb.tail
  if first ≥ n then (rb.buf.drop rb.tail).take n
  else (rb.buf.drop rb.tail).take first ++ rb.buf.take (n - first)

def ringSkip (rb : RingBuffer) (n : Nat) : RingBuffer :=
  { rb with tail := (rb.tail + n) % rb.capacity, used := rb.used - n }

/-- `ring_read`: the bytes it copies out, and the ring with the tail moved past them. -/
def ringRead (rb : RingBuffer) (n : Nat) : List UInt8 × RingBuffer :=
  (ringPeek rb n, ringSkip rb n)

/-- `drop_oldest`: the size of the frame it freed, `0` when it freed nothing. -/
def dropOldest (rb : RingBuffer) : Nat × RingBuffer :=
  if rb.used < headerSize then (0, rb)
  else
    let hdr := Header.ofBytes (ringPeek rb headerSize)
    let frameSize := headerSize + hdr.len.toNat
    if rb.used < frameSize then (0, rb)
    else
      (frameSize,
        { ringSkip rb frameSize with
          droppedMessages := rb.droppedMessages + 1
          droppedBytes := rb.droppedBytes + UInt64.ofNat hdr.len.toNat })

/-- `while (rb->used > 0) drop_oldest(rb)`. -/
def evictAll (rb : RingBuffer) : RingBuffer ⊕ RingBuffer :=
  if rb.used > 0 then .inr (dropOldest rb).2 else .inl rb

/-- `while (free_space < frame_size)`, with its guard against a drop that frees nothing. -/
def evictFor (frameSize : Nat) (rb : RingBuffer) : RingBuffer ⊕ RingBuffer :=
  if rb.capacity - rb.used < frameSize then
    let (freed, rb') := dropOldest rb
    if freed = 0 then .inl rb' else .inr rb'
  else .inl rb

def rbPush (rb : RingBuffer) (kind flags : UInt8) (data : Payload) : Option RingBuffer :=
  let len := data.bytes.length
  let frameSize := headerSize + len
  if frameSize > rb.capacity then
    let maxPayload := rb.capacity - headerSize
    let hdr : Header := ⟨kind, flags ||| flagTruncated, UInt32.ofNat maxPayload⟩
    match Loop.run evictAll (rb.used + 1) rb with
    | none => none
    | some rb => some (ringWrite (ringWrite rb hdr.toBytes) (data.bytes.take maxPayload))
  else
    let hdr : Header := ⟨kind, flags, UInt32.ofNat len⟩
    match Loop.run (evictFor frameSize) (rb.used + 1) rb with
    | none => none
    | some rb => some (ringWrite (ringWrite rb hdr.toBytes) data.bytes)

def rbHasData (rb : RingBuffer) : Bool := rb.used ≥ headerSize

inductive PopStatus where
  | ok
  | empty
  | truncatedCopy
  | error
  deriving DecidableEq, Repr

/-- What `rb_pop` leaves in its out-parameters: kind, flags and the bytes copied out. They stay
unwritten on `RB_EMPTY` and `RB_ERROR`. -/
structure Popped where
  kind : UInt8
  flags : UInt8
  out : List UInt8
  deriving DecidableEq, Repr

def rbPop (rb : RingBuffer) (outCap : UInt32) : PopStatus × Option Popped × RingBuffer :=
  if rb.used < headerSize then (.empty, none, rb)
  else
    let hdr := Header.ofBytes (ringPeek rb headerSize)
    if rb.used < headerSize + hdr.len.toNat then (.error, none, rb)
    else
      let rb := ringSkip rb headerSize
      if hdr.len ≤ outCap then
        let (out, rb) := ringRead rb hdr.len.toNat
        (.ok, some ⟨hdr.kind, hdr.flags, out⟩, rb)
      else
        -- caller buffer too small: copy what fits, skip the rest
        let (out, rb) := ringRead rb outCap.toNat
        (.truncatedCopy, some ⟨hdr.kind, hdr.flags, out⟩,
          ringSkip rb (hdr.len.toNat - outCap.toNat))

/-! ## Calls in sequence -/

inductive Call where
  | push (kind flags : UInt8) (data : Payload)
  | pop (outCap : UInt32)
  | hasData
  | reset

inductive Return where
  | pushed
  | popped (status : PopStatus) (frame : Option Popped)
  | has (b : Bool)
  | done
  deriving DecidableEq, Repr

def call (rb : RingBuffer) : Call → Option (Return × RingBuffer)
  | .push kind flags data => (rbPush rb kind flags data).map fun rb' => (.pushed, rb')
  | .pop outCap =>
    let (status, frame, rb') := rbPop rb outCap
    some (.popped status frame, rb')
  | .hasData => some (.has (rbHasData rb), rb)
  | .reset => some (.done, rbReset rb)

def calls (rb : RingBuffer) : List Call → Option (List Return × RingBuffer)
  | [] => some ([], rb)
  | c :: cs =>
    match call rb c with
    | none => none
    | some (r, rb') => (calls rb' cs).map fun (rs, rb'') => (r :: rs, rb'')

end Ring
end Raoui
