import Raoui.Ring.Fifo

/-!
# Raoui.Ring.Refine

The byte ring refines the bounded queue of frames.

* `Rep rb q`: the bytes between tail and head are the encodings of the queued frames, one after
  the other round the ring, and the statistics count the frames given up.
* `call_refines`: on a represented ring every call returns, returns what the queue returns, and
  leaves a represented ring.
* `calls_refine_of_rep`, `rep_init`: so does every sequence of calls, and `rb_init` begins one.
-/

namespace Raoui
namespace Ring

def Frame.header (f : Frame) : Header := ⟨f.kind, f.flags, UInt32.ofNat f.payload.length⟩

def Frame.encode (f : Frame) : List UInt8 := f.header.toBytes ++ f.payload

def encode (q : List Frame) : List UInt8 := q.flatMap Frame.encode

structure Rep (rb : RingBuffer) (q : Fifo) : Prop where
  buf_len : rb.buf.length = rb.capacity
  cap_min : headerSize + 1 ≤ rb.capacity
  tail_lt : rb.tail < rb.capacity
  head_eq : rb.head = (rb.tail + rb.used) % rb.capacity
  used_eq : rb.used = totalSize q.queue
  used_le : rb.used ≤ rb.capacity
  bytes : Cyclic.window rb.buf rb.tail rb.used = encode q.queue
  lens : ∀ f ∈ q.queue, f.payload.length < 2 ^ 32
  messages : rb.droppedMessages = UInt64.ofNat q.evicted.length
  dropped : rb.droppedBytes = UInt64.ofNat (payloadTotal q.evicted)

/-! ## Headers -/

@[simp] theorem Header.toBytes_length (h : Header) : h.toBytes.length = headerSize := rfl

theorem Header.ofBytes_toBytes (h : Header) : Header.ofBytes h.toBytes = h := by
  obtain ⟨kind, flags, len⟩ := h
  have hlt : len.toNat < 2 ^ 32 := len.toNat_lt
  simp only [Header.ofBytes, Header.toBytes, List.getD_cons_zero, List.getD_cons_succ,
    Header.mk.injEq, true_and]
  apply UInt32.toNat_inj.mp
  simp only [UInt8.toNat_ofNat', UInt32.toNat_ofNat']
  omega

theorem Frame.header_len {f : Frame} (h : f.payload.length < 2 ^ 32) :
    f.header.len.toNat = f.payload.length := by
  simp only [Frame.header, UInt32.toNat_ofNat']
  omega

@[simp] theorem Frame.encode_length (f : Frame) : f.encode.length = f.size := by
  simp [Frame.encode, Frame.size]

@[simp] theorem encode_nil : encode [] = [] := rfl

@[simp] theorem encode_cons (f : Frame) (q : List Frame) : encode (f :: q) = f.encode ++ encode q :=
  rfl

@[simp] theorem encode_append (p q : List Frame) : encode (p ++ q) = encode p ++ encode q := by
  simp [encode]

/-! ## Reading -/

theorem ringPeek_eq {rb : RingBuffer} {n : Nat} (hlen : rb.buf.length = rb.capacity)
    (htail : rb.tail < rb.capacity) (hn : n ≤ rb.capacity) :
    ringPeek rb n = Cyclic.window rb.buf rb.tail n := by
  rw [← Cyclic.copyOut_eq_window (by omega) (by omega)]
  simp only [ringPeek, Cyclic.copyOut, hlen]

theorem Rep.peek {rb : RingBuffer} {q : Fifo} (h : Rep rb q) {n : Nat} (hn : n ≤ rb.used) :
    ringPeek rb n = (encode q.queue).take n := by
  have := h.used_le
  rw [ringPeek_eq h.buf_len h.tail_lt (by omega), ← h.bytes, Cyclic.window_take _ _ hn]

theorem Rep.skip_bytes {rb : RingBuffer} {q : Fifo} (h : Rep rb q) {n : Nat} (hn : n ≤ rb.used) :
    Cyclic.window (ringSkip rb n).buf (ringSkip rb n).tail (ringSkip rb n).used =
      (encode q.queue).drop n := by
  rw [← h.bytes, Cyclic.window_drop _ _ hn, h.buf_len]
  rfl

theorem ringSkip_add (rb : RingBuffer) (m n : Nat) :
    ringSkip (ringSkip rb m) n = ringSkip rb (m + n) := by
  simp [ringSkip, Nat.add_assoc, Nat.sub_sub]

section Oldest

variable {rb : RingBuffer} {q : Fifo} {f : Frame} {rest : List Frame}

theorem Rep.used_cons (h : Rep rb q) (hq : q.queue = f :: rest) :
    rb.used = headerSize + f.payload.length + totalSize rest := by
  rw [h.used_eq, hq, totalSize_cons, Frame.size]

/-- The header in front of the ring is the oldest frame's. -/
theorem Rep.header (h : Rep rb q) (hq : q.queue = f :: rest) :
    Header.ofBytes (ringPeek rb headerSize) = f.header := by
  have hu := h.used_cons hq
  rw [h.peek (by omega), hq, encode_cons, Frame.encode, List.append_assoc,
    List.take_left' (Header.toBytes_length _), Header.ofBytes_toBytes]

theorem Rep.header_len (h : Rep rb q) (hq : q.queue = f :: rest) :
    (Header.ofBytes (ringPeek rb headerSize)).len.toNat = f.payload.length := by
  rw [h.header hq, Frame.header_len (h.lens f (by simp [hq]))]

/-- Skipping the oldest frame leaves the others in place. -/
theorem Rep.skip (h : Rep rb q) (hq : q.queue = f :: rest) (messages bytes : UInt64)
    (evicted : List Frame) (hm : messages = UInt64.ofNat evicted.length)
    (hb : bytes = UInt64.ofNat (payloadTotal evicted)) :
    Rep { ringSkip rb f.size with droppedMessages := messages, droppedBytes := bytes }
      ⟨rest, evicted⟩ := by
  have hu := h.used_cons hq
  have hcap := h.cap_min
  have hle := h.used_le
  have hsize : f.size ≤ rb.used := by simp only [Frame.size]; omega
  refine ⟨h.buf_len, h.cap_min, Nat.mod_lt _ (by omega), ?_, ?_, ?_, ?_, ?_, hm, hb⟩
  · show rb.head = ((rb.tail + f.size) % rb.capacity + (rb.used - f.size)) % rb.capacity
    rw [h.head_eq, Nat.mod_add_mod, Nat.add_assoc, Nat.add_sub_cancel' hsize]
  · simp only [ringSkip, Frame.size]; omega
  · simp only [ringSkip]; omega
  · have := h.skip_bytes hsize
    rw [hq, encode_cons, List.drop_left' (Frame.encode_length f)] at this
    exact this
  · intro g hg; exact h.lens g (by simp [hq, hg])

theorem Rep.dropOldest (h : Rep rb q) (hq : q.queue = f :: rest) :
    ∃ rb', dropOldest rb = (f.size, rb') ∧ Rep rb' ⟨rest, q.evicted ++ [f]⟩ ∧
      rb'.used + f.size = rb.used ∧ rb'.capacity = rb.capacity := by
  have hu := h.used_cons hq
  have hlen := h.header_len hq
  refine ⟨_, ?_, h.skip hq (rb.droppedMessages + 1)
    (rb.droppedBytes + UInt64.ofNat f.payload.length) (q.evicted ++ [f]) ?_ ?_, ?_, rfl⟩
  · simp only [Ring.dropOldest, hlen]
    rw [if_neg (by omega), if_neg (by omega)]
    rfl
  · rw [h.messages, List.length_append, UInt64.ofNat_add]; rfl
  · rw [h.dropped, payloadTotal_append, UInt64.ofNat_add]; simp [payloadTotal]
  · simp only [ringSkip, Frame.size]; omega

end Oldest

/-! ## Eviction -/

theorem Rep.queue_ne_nil {rb : RingBuffer} {q : Fifo} (h : Rep rb q) (hu : 0 < rb.used) :
    ∃ f rest, q.queue = f :: rest := by
  cases hq : q.queue with
  | nil => rw [h.used_eq, hq] at hu; simp at hu
  | cons f rest => exact ⟨f, rest, rfl⟩

theorem Rep.used_pos {rb : RingBuffer} {q : Fifo} (h : Rep rb q) {f : Frame} {rest : List Frame}
    (hq : q.queue = f :: rest) : headerSize ≤ rb.used := by
  have := h.used_cons hq; omega

/-- The loop that empties the ring, by induction on the queue. -/
theorem evictAll_run : ∀ (queue evicted : List Frame) {rb : RingBuffer} {fuel : Nat},
    Rep rb ⟨queue, evicted⟩ → rb.used < fuel →
    ∃ rb', Loop.run evictAll fuel rb = some rb' ∧ Rep rb' ⟨[], evicted ++ queue⟩ ∧
      rb'.capacity = rb.capacity := by
  intro queue
  induction queue with
  | nil =>
    intro evicted rb fuel h hf
    obtain ⟨n, rfl⟩ : ∃ n, fuel = n + 1 := ⟨fuel - 1, by omega⟩
    have hu : rb.used = 0 := by rw [h.used_eq]; rfl
    exact ⟨rb, Loop.run_exit n (by simp [evictAll, hu]), by simpa using h, rfl⟩
  | cons f rest ih =>
    intro evicted rb fuel h hf
    obtain ⟨n, rfl⟩ : ∃ n, fuel = n + 1 := ⟨fuel - 1, by omega⟩
    obtain ⟨rb1, hd, h1, hu1, hc1⟩ := h.dropOldest rfl
    have hsize := f.headerSize_le
    simp only [headerSize] at hsize
    obtain ⟨rb', hr, h', hc'⟩ := ih _ h1 (by omega : rb1.used < n)
    refine ⟨rb', ?_, by simpa using h', by omega⟩
    have hround : evictAll rb = .inr rb1 := by
      simp only [evictAll, hd]
      rw [if_pos (by omega)]
    rw [Loop.run_again n hround]
    exact hr

/-- The loop that makes room, by induction on the queue: it stops at the shortest run of oldest
frames that will do. Its guard never fires, since a drop on a represented ring frees a frame. -/
theorem evictFor_run {need : Nat} : ∀ (queue evicted : List Frame) {rb : RingBuffer} {fuel : Nat},
    Rep rb ⟨queue, evicted⟩ → need ≤ rb.capacity → rb.used < fuel →
    ∃ rb' out kept, Loop.run (evictFor need) fuel rb = some rb' ∧
      Evicts rb.capacity need queue out kept ∧ Rep rb' ⟨kept, evicted ++ out⟩ ∧
      rb'.capacity = rb.capacity := by
  intro queue
  induction queue with
  | nil =>
    intro evicted rb fuel h hn hf
    obtain ⟨n, rfl⟩ : ∃ n, fuel = n + 1 := ⟨fuel - 1, by omega⟩
    have hu : rb.used = 0 := by rw [h.used_eq]; rfl
    refine ⟨rb, [], [], Loop.run_exit n ?_, .none (by simpa using hn), by simpa using h, rfl⟩
    simp only [evictFor, hu]
    rw [if_neg (by omega)]
  | cons f rest ih =>
    intro evicted rb fuel h hn hf
    obtain ⟨n, rfl⟩ : ∃ n, fuel = n + 1 := ⟨fuel - 1, by omega⟩
    have hu : rb.used = totalSize (f :: rest) := h.used_eq
    have hle := h.used_le
    by_cases hroom : totalSize (f :: rest) + need ≤ rb.capacity
    · refine ⟨rb, [], f :: rest, Loop.run_exit n ?_, .none hroom, by simpa using h, rfl⟩
      simp only [evictFor]
      rw [if_neg (by omega)]
    · obtain ⟨rb1, hd, h1, hu1, hc1⟩ := h.dropOldest rfl
      have hsize := f.headerSize_le
      simp only [headerSize] at hsize
      obtain ⟨rb', out, kept, hr, he, h', hc'⟩ := ih _ h1 (by omega) (by omega : rb1.used < n)
      rw [hc1] at he
      refine ⟨rb', f :: out, kept, ?_, he.cons (by omega), by simpa using h', by omega⟩
      have hround : evictFor need rb = .inr rb1 := by
        simp only [evictFor, hd]
        rw [if_pos (by omega), if_neg (by omega)]
      rw [Loop.run_again n hround]
      exact hr

/-! ## Writing -/

theorem ringWrite_buf {rb : RingBuffer} {src : List UInt8} (hlen : rb.buf.length = rb.capacity) :
    (ringWrite rb src).buf = Cyclic.copyIn rb.buf rb.head src := by
  simp only [ringWrite, Cyclic.copyIn, hlen]

theorem window_ringWrite {rb : RingBuffer} {src : List UInt8}
    (hlen : rb.buf.length = rb.capacity) (htail : rb.tail < rb.capacity)
    (hhead : rb.head = (rb.tail + rb.used) % rb.capacity) (hn : rb.used + src.length ≤ rb.capacity) :
    Cyclic.window (ringWrite rb src).buf rb.tail (rb.used + src.length) =
      Cyclic.window rb.buf rb.tail rb.used ++ src := by
  rw [ringWrite_buf hlen, hhead, ← hlen]
  exact Cyclic.window_copyIn (by omega) (by omega)

theorem ringWrite_buf_length {rb : RingBuffer} {src : List UInt8}
    (hlen : rb.buf.length = rb.capacity) (hhead : rb.head < rb.capacity)
    (hn : src.length ≤ rb.capacity) : (ringWrite rb src).buf.length = rb.capacity := by
  rw [ringWrite_buf hlen, Cyclic.copyIn_length (by omega) (by omega), hlen]

/-- Writing a frame's header and then its payload appends the frame to the queue. -/
theorem Rep.write {rb : RingBuffer} {q : Fifo} (h : Rep rb q) {f : Frame}
    (hlen : f.payload.length < 2 ^ 32) (hroom : rb.used + f.size ≤ rb.capacity) :
    Rep (ringWrite (ringWrite rb f.header.toBytes) f.payload) ⟨q.queue ++ [f], q.evicted⟩ := by
  have hcap := h.cap_min
  have htail := h.tail_lt
  simp only [Frame.size, headerSize] at hroom hcap
  have hhead : rb.head < rb.capacity := by rw [h.head_eq]; exact Nat.mod_lt _ (by omega)
  let rb1 := ringWrite rb f.header.toBytes
  have hlen1 : rb1.buf.length = rb1.capacity :=
    ringWrite_buf_length h.buf_len hhead (by simp [headerSize]; omega)
  have hhead1 : rb1.head = (rb1.tail + rb1.used) % rb1.capacity := by
    show (rb.head + headerSize) % rb.capacity = (rb.tail + (rb.used + headerSize)) % rb.capacity
    rw [h.head_eq, Nat.mod_add_mod, Nat.add_assoc]
  have hbytes1 : Cyclic.window rb1.buf rb1.tail rb1.used = encode q.queue ++ f.header.toBytes := by
    rw [← h.bytes]
    exact window_ringWrite h.buf_len htail h.head_eq (by simp [headerSize]; omega)
  have hroom1 : rb1.used + f.payload.length ≤ rb1.capacity := by
    show rb.used + headerSize + f.payload.length ≤ rb.capacity
    simp only [headerSize]; omega
  have hlt1 : rb1.head < rb1.capacity := by rw [hhead1]; exact Nat.mod_lt _ (by show 0 < rb.capacity; omega)
  refine ⟨?_, h.cap_min, htail, ?_, ?_, hroom1, ?_, ?_, h.messages, h.dropped⟩
  · exact ringWrite_buf_length hlen1 hlt1 (Nat.le_trans (Nat.le_add_left ..) hroom1)
  · show (rb1.head + f.payload.length) % rb1.capacity =
      (rb1.tail + (rb1.used + f.payload.length)) % rb1.capacity
    rw [hhead1, Nat.mod_add_mod, Nat.add_assoc]
  · show rb.used + headerSize + f.payload.length = totalSize (q.queue ++ [f])
    simp [h.used_eq, Frame.size, Nat.add_assoc]
  · rw [encode_append, encode_cons, encode_nil, List.append_nil, Frame.encode,
      ← List.append_assoc, ← hbytes1]
    exact window_ringWrite hlen1 htail hhead1 hroom1
  · intro g hg
    rcases List.mem_append.mp hg with hg | hg
    · exact h.lens g hg
    · rw [List.mem_singleton.mp hg]; exact hlen

/-! ## The calls -/

theorem rbPush_refines {rb : RingBuffer} {q : Fifo} (h : Rep rb q) (kind flags : UInt8)
    (data : Payload) :
    ∃ rb' q', rbPush rb kind flags data = some rb' ∧ Rep rb' q' ∧
      Fifo.Step rb.capacity q (.push kind flags data) .pushed q' ∧ rb'.capacity = rb.capacity := by
  have hcap := h.cap_min
  have hdata := data.len_lt
  by_cases hbig : headerSize + data.bytes.length > rb.capacity
  · obtain ⟨rb1, hr, h1, hc1⟩ := evictAll_run q.queue q.evicted h (Nat.lt_succ_self rb.used)
    let f : Frame := ⟨kind, flags ||| flagTruncated, data.bytes.take (rb.capacity - headerSize)⟩
    have hf : f.payload.length = rb.capacity - headerSize := by simp [f]; omega
    have hu1 : rb1.used = 0 := by rw [h1.used_eq]; rfl
    have hroom : rb1.used + f.size ≤ rb1.capacity := by
      rw [hu1, hc1, Frame.size, hf]; simp only [headerSize] at *; omega
    have hw := h1.write (by rw [hf]; omega) hroom
    refine ⟨_, _, ?_, hw, .pushTruncated hbig, hc1⟩
    simp only [rbPush]
    rw [if_pos hbig, hr]
    simp only [Frame.header, hf, f]
  · obtain ⟨rb1, out, kept, hr, he, h1, hc1⟩ := evictFor_run q.queue q.evicted h
      (by omega : headerSize + data.bytes.length ≤ rb.capacity) (Nat.lt_succ_self rb.used)
    let f : Frame := ⟨kind, flags, data.bytes⟩
    have hroom : rb1.used + f.size ≤ rb1.capacity := by
      have := he.room
      rw [h1.used_eq, hc1]
      simpa [Frame.size, f] using this
    refine ⟨_, _, ?_, h1.write hdata hroom, .push (by omega) he, hc1⟩
    simp only [rbPush]
    rw [if_neg hbig, hr]
    rfl

theorem rbPop_refines {rb : RingBuffer} {q : Fifo} (h : Rep rb q) (outCap : UInt32) :
    ∃ status frame rb' q', rbPop rb outCap = (status, frame, rb') ∧ Rep rb' q' ∧
      Fifo.Step rb.capacity q (.pop outCap) (.popped status frame) q' ∧
      rb'.capacity = rb.capacity := by
  cases hq : q.queue with
  | nil =>
    have hu : rb.used = 0 := by rw [h.used_eq, hq]; rfl
    refine ⟨.empty, none, rb, q, ?_, h, .popEmpty hq, rfl⟩
    simp [rbPop, hu, headerSize]
  | cons f rest =>
    have hu := h.used_cons hq
    have hlen := h.header_len hq
    have hhdr := h.header hq
    have hskip := h.skip hq rb.droppedMessages rb.droppedBytes q.evicted h.messages h.dropped
    -- past the header the ring starts with the payload
    have hpeek : ∀ n, n ≤ f.payload.length →
        ringPeek (ringSkip rb headerSize) n = f.payload.take n := by
      intro n hn
      have hle := h.used_le
      have hcap := h.cap_min
      have hp : ringPeek (ringSkip rb headerSize) n = _ :=
        ringPeek_eq h.buf_len (Nat.mod_lt _ (by omega)) (by show n ≤ rb.capacity; omega)
      have hs := h.skip_bytes (show headerSize ≤ rb.used by omega)
      rw [hq, encode_cons, Frame.encode, List.append_assoc,
        List.drop_left' (Header.toBytes_length _)] at hs
      rw [hp, ← Cyclic.window_take _ _ (show n ≤ (ringSkip rb headerSize).used by
        show n ≤ rb.used - headerSize; omega), hs, List.take_append_of_le_length hn]
    by_cases hfit : f.payload.length ≤ outCap.toNat
    · refine ⟨.ok, _, _, _, ?_, hskip, .pop hq hfit, rfl⟩
      simp only [rbPop, hlen]
      rw [if_neg (by omega), if_neg (by omega), if_pos (by rw [UInt32.le_iff_toNat_le, hlen]; exact hfit)]
      simp only [ringRead, hpeek _ (Nat.le_refl _), List.take_length, ringSkip_add, hhdr]
      rfl
    · refine ⟨.truncatedCopy, _, _, _, ?_, hskip, .popShort hq (by omega), rfl⟩
      simp only [rbPop, hlen]
      rw [if_neg (by omega), if_neg (by omega),
        if_neg (by rw [UInt32.le_iff_toNat_le, hlen]; exact hfit)]
      simp only [ringRead, hpeek _ (by omega : outCap.toNat ≤ f.payload.length), ringSkip_add, hhdr]
      rw [show headerSize + outCap.toNat + (f.payload.length - outCap.toNat) = f.size by
        simp only [Frame.size]; omega]
      rfl

theorem call_refines {rb : RingBuffer} {q : Fifo} (h : Rep rb q) (c : Call) :
    ∃ r rb' q', call rb c = some (r, rb') ∧ Rep rb' q' ∧ Fifo.Step rb.capacity q c r q' ∧
      rb'.capacity = rb.capacity := by
  cases c with
  | push kind flags data =>
    obtain ⟨rb', q', hp, h', hs, hc⟩ := rbPush_refines h kind flags data
    exact ⟨_, rb', q', by simp [call, hp], h', hs, hc⟩
  | pop outCap =>
    obtain ⟨status, frame, rb', q', hp, h', hs, hc⟩ := rbPop_refines h outCap
    exact ⟨_, rb', q', by simp [call, hp], h', hs, hc⟩
  | hasData =>
    have hhas : rbHasData rb = decide (q.queue ≠ []) := by
      cases hq : q.queue with
      | nil => simp [rbHasData, h.used_eq, hq, headerSize]
      | cons f rest => simpa [rbHasData] using h.used_pos hq
    exact ⟨_, rb, q, by rw [call, hhas], h, .hasData, rfl⟩
  | reset =>
    have hcap := h.cap_min
    refine ⟨_, _, _, rfl, ?_, .reset, rfl⟩
    exact ⟨h.buf_len, hcap, by show 0 < rb.capacity; omega, by simp [rbReset], rfl, Nat.zero_le _,
      rfl, by simp [Fifo.empty], rfl, rfl⟩

theorem calls_refine_of_rep : ∀ (cs : List Call) {rb : RingBuffer} {q : Fifo}, Rep rb q →
    ∃ rs rb' q', calls rb cs = some (rs, rb') ∧ Rep rb' q' ∧ Fifo.Steps rb.capacity q cs rs q' ∧
      rb'.capacity = rb.capacity := by
  intro cs
  induction cs with
  | nil => intro rb q h; exact ⟨[], rb, q, rfl, h, .nil, rfl⟩
  | cons c cs ih =>
    intro rb q h
    obtain ⟨r, rb1, q1, hc, h1, hs, hcap⟩ := call_refines h c
    obtain ⟨rs, rb2, q2, hcs, h2, hss, hcap2⟩ := ih h1
    rw [hcap] at hss
    exact ⟨r :: rs, rb2, q2, by simp [calls, hc, hcs], h2, .cons hs hss, by omega⟩

theorem rep_init {mem : List UInt8} {rb : RingBuffer} (h : rbInit mem = some rb) :
    Rep rb Fifo.empty ∧ rb.capacity = mem.length := by
  simp only [rbInit] at h
  split at h
  · cases h
  · cases h
    exact ⟨⟨rfl, by show headerSize + 1 ≤ mem.length; omega, by show 0 < mem.length; omega,
      by simp, rfl, Nat.zero_le _, rfl, by simp [Fifo.empty], rfl, rfl⟩, rfl⟩

/-! ## The branches for a corrupt state -/

theorem Fifo.Steps.no_error {cap : Nat} {q q' : Fifo} {cs : List Call} {rs : List Return}
    (h : Fifo.Steps cap q cs rs q') (frame : Option Popped) : Return.popped .error frame ∉ rs := by
  induction h with
  | nil => simp
  | cons hs _ ih =>
    intro hmem
    rcases List.mem_cons.mp hmem with rfl | hmem
    · cases hs
    · exact ih hmem

/-- The ring after `k` drops in a row, as an eviction loop makes them. -/
def drops (rb : RingBuffer) : Nat → RingBuffer
  | 0 => rb
  | k + 1 => (dropOldest (drops rb k)).2

theorem Rep.drops {rb : RingBuffer} {q : Fifo} (h : Rep rb q) (k : Nat) :
    ∃ q', Rep (Ring.drops rb k) q' := by
  induction k with
  | zero => exact ⟨q, h⟩
  | succ k ih =>
    obtain ⟨q', h'⟩ := ih
    cases hq : q'.queue with
    | nil =>
      have hu : (Ring.drops rb k).used = 0 := by rw [h'.used_eq, hq]; rfl
      refine ⟨q', ?_⟩
      simp only [Ring.drops, Ring.dropOldest, hu, headerSize]
      exact h'
    | cons f rest =>
      obtain ⟨rb1, hd, h1, _, _⟩ := h'.dropOldest hq
      exact ⟨_, by simp only [Ring.drops, hd]; exact h1⟩

theorem Rep.dropOldest_frees {rb : RingBuffer} {q : Fifo} (h : Rep rb q) (hu : 0 < rb.used) :
    (Ring.dropOldest rb).1 ≠ 0 := by
  obtain ⟨f, rest, hq⟩ := h.queue_ne_nil hu
  obtain ⟨rb1, hd, _⟩ := h.dropOldest hq
  rw [hd]
  simp [Frame.size, headerSize]

/-- From `rb_init` on, every sequence of calls returns and behaves as the bounded queue does, and
the ring reached represents the queue reached. No pop answers `RB_ERROR`, and no drop made while
there are bytes to drop frees nothing. -/
theorem ring_refines_fifo (mem : List UInt8) (hcap : 7 ≤ mem.length) (cs : List Call) :
    ∃ rb rs rb' q, rbInit mem = some rb ∧ calls rb cs = some (rs, rb') ∧
      Fifo.Steps mem.length Fifo.empty cs rs q ∧ Rep rb' q ∧
      (∀ frame, Return.popped .error frame ∉ rs) ∧
      ∀ k, 0 < (drops rb' k).used → (dropOldest (drops rb' k)).1 ≠ 0 := by
  obtain ⟨rb, hrb⟩ : ∃ rb, rbInit mem = some rb :=
    ⟨_, by rw [rbInit, if_neg (by simp only [headerSize]; omega)]⟩
  obtain ⟨hrep, hc⟩ := rep_init hrb
  obtain ⟨rs, rb', q, hcalls, hrep', hsteps, _⟩ := calls_refine_of_rep cs hrep
  rw [hc] at hsteps
  refine ⟨rb, rs, rb', q, hrb, hcalls, hsteps, hrep', hsteps.no_error, ?_⟩
  intro k hu
  obtain ⟨q', h'⟩ := hrep'.drops k
  exact h'.dropOldest_frees hu

/-- The smallest ring: a second frame evicts the first, and an oversized one is cut. -/
theorem ring_refines_fifo_smallest :
    ∃ rb rs rb' q, rbInit (List.replicate 7 0xff) = some rb ∧
      calls rb [.push 0 0 ⟨[1], by decide⟩, .push 5 0 ⟨[], by decide⟩, .pop 16,
        .push 2 0 ⟨[7, 8, 9], by decide⟩, .pop 0] = some (rs, rb') ∧
      Fifo.Steps (List.replicate 7 (0xff : UInt8)).length Fifo.empty
        [.push 0 0 ⟨[1], by decide⟩, .push 5 0 ⟨[], by decide⟩, .pop 16,
          .push 2 0 ⟨[7, 8, 9], by decide⟩, .pop 0] rs q ∧ Rep rb' q ∧
      (∀ frame, Return.popped .error frame ∉ rs) ∧
      ∀ k, 0 < (drops rb' k).used → (dropOldest (drops rb' k)).1 ≠ 0 :=
  ring_refines_fifo (List.replicate 7 0xff) (by decide) _

end Ring
end Raoui
