import Raoui.Ring.Buffer

/-!
# Raoui.Ring.Fifo

What the ring is for: a bounded first-in first-out queue of frames that makes room for a new
frame by giving up its oldest ones. Nothing here speaks of bytes, wrap-around or counters; the
statistics are replaced by the list of frames given up since the last reset.
-/

namespace Raoui
namespace Ring

structure Frame where
  kind : UInt8
  flags : UInt8
  payload : List UInt8
  deriving DecidableEq, Repr

/-- The room a frame takes: its header and its payload. -/
def Frame.size (f : Frame) : Nat := headerSize + f.payload.length

def totalSize (q : List Frame) : Nat := (q.map Frame.size).sum

def payloadTotal (q : List Frame) : Nat := (q.map fun f => f.payload.length).sum

structure Fifo where
  queue : List Frame
  evicted : List Frame

def Fifo.empty : Fifo := ⟨[], []⟩

/-- `out` is the shortest run of oldest frames whose removal leaves room for `need` more. -/
structure Evicts (cap need : Nat) (queue out kept : List Frame) : Prop where
  split : queue = out ++ kept
  room : totalSize kept + need ≤ cap
  shortest : ∀ out' kept', queue = out' ++ kept' → totalSize kept' + need ≤ cap →
    out.length ≤ out'.length

/-- One call on a queue bounded by `cap`. -/
inductive Fifo.Step (cap : Nat) : Fifo → Call → Return → Fifo → Prop where
  | push {q : Fifo} {kind flags : UInt8} {data : Payload} {out kept : List Frame}
      (fits : headerSize + data.bytes.length ≤ cap)
      (evicts : Evicts cap (headerSize + data.bytes.length) q.queue out kept) :
      Fifo.Step cap q (.push kind flags data) .pushed
        ⟨kept ++ [⟨kind, flags, data.bytes⟩], q.evicted ++ out⟩
  | pushTruncated {q : Fifo} {kind flags : UInt8} {data : Payload}
      (large : cap < headerSize + data.bytes.length) :
      Fifo.Step cap q (.push kind flags data) .pushed
        ⟨[⟨kind, flags ||| flagTruncated, data.bytes.take (cap - headerSize)⟩],
          q.evicted ++ q.queue⟩
  | popEmpty {q : Fifo} {outCap : UInt32} (none_queued : q.queue = []) :
      Fifo.Step cap q (.pop outCap) (.popped .empty none) q
  | pop {q : Fifo} {f : Frame} {rest : List Frame} {outCap : UInt32}
      (oldest : q.queue = f :: rest) (whole : f.payload.length ≤ outCap.toNat) :
      Fifo.Step cap q (.pop outCap) (.popped .ok (some ⟨f.kind, f.flags, f.payload⟩))
        ⟨rest, q.evicted⟩
  | popShort {q : Fifo} {f : Frame} {rest : List Frame} {outCap : UInt32}
      (oldest : q.queue = f :: rest) (short : outCap.toNat < f.payload.length) :
      Fifo.Step cap q (.pop outCap)
        (.popped .truncatedCopy (some ⟨f.kind, f.flags, f.payload.take outCap.toNat⟩))
        ⟨rest, q.evicted⟩
  | hasData {q : Fifo} : Fifo.Step cap q .hasData (.has (q.queue ≠ [])) q
  | reset {q : Fifo} : Fifo.Step cap q .reset .done Fifo.empty

inductive Fifo.Steps (cap : Nat) : Fifo → List Call → List Return → Fifo → Prop where
  | nil {q : Fifo} : Fifo.Steps cap q [] [] q
  | cons {q q' q'' : Fifo} {c : Call} {r : Return} {cs : List Call} {rs : List Return} :
      Fifo.Step cap q c r q' → Fifo.Steps cap q' cs rs q'' →
      Fifo.Steps cap q (c :: cs) (r :: rs) q''

@[simp] theorem totalSize_nil : totalSize [] = 0 := rfl

@[simp] theorem totalSize_cons (f : Frame) (q : List Frame) :
    totalSize (f :: q) = f.size + totalSize q := by simp [totalSize]

@[simp] theorem totalSize_append (p q : List Frame) :
    totalSize (p ++ q) = totalSize p + totalSize q := by simp [totalSize]

@[simp] theorem payloadTotal_append (p q : List Frame) :
    payloadTotal (p ++ q) = payloadTotal p + payloadTotal q := by simp [payloadTotal]

theorem Frame.headerSize_le (f : Frame) : headerSize ≤ f.size := by simp [Frame.size]

theorem Evicts.none {cap need : Nat} {queue : List Frame} (h : totalSize queue + need ≤ cap) :
    Evicts cap need queue [] queue :=
  ⟨rfl, h, fun _ _ _ _ => by simp⟩

/-- Giving up the oldest frame first, when there is no room with it. -/
theorem Evicts.cons {cap need : Nat} {f : Frame} {queue out kept : List Frame}
    (hfull : cap < totalSize (f :: queue) + need) (h : Evicts cap need queue out kept) :
    Evicts cap need (f :: queue) (f :: out) kept := by
  refine ⟨by rw [h.split]; rfl, h.room, ?_⟩
  intro out' kept' hsplit hroom
  cases out' with
  | nil =>
    simp only [List.nil_append] at hsplit
    rw [← hsplit] at hroom
    omega
  | cons g out' =>
    simp only [List.cons_append, List.cons.injEq] at hsplit
    have := h.shortest out' kept' hsplit.2 hroom
    simp only [List.length_cons]
    omega

end Ring
end Raoui
