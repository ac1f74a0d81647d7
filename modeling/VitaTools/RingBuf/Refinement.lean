import Mathlib.Data.Nat.ModEq
import VitaTools.Library.BoundedQueue
import VitaTools.RingBuf.Model

set_option autoImplicit false

namespace VitaTools.RingBuf

open VitaTools.Library

def queueCall {capacity : Nat} (queue : BoundedQueue Byte capacity) :
    Call → BoundedQueue Byte capacity × LogBuffer.Reply
  | .put c size =>
      (queue.offer (LogBuffer.source c size), ⟨min (LogBuffer.source c size).length queue.room, []⟩)
  | .putClobber c size =>
      (queue.push (LogBuffer.source c size), ⟨(LogBuffer.source c size).length, []⟩)
  | .get size =>
      (queue.discard size.toNat,
        ⟨min size.toNat queue.items.length, queue.items.take size.toNat⟩)
  | .getWait ret size =>
      if ret < 0 then (queue, ⟨0, []⟩)
      else (queue.discard size.toNat,
        ⟨min size.toNat queue.items.length, queue.items.take size.toNat⟩)

def queueMachine (capacity : Nat) : Machine (BoundedQueue Byte capacity) Call LogBuffer.Reply :=
  ⟨queueCall⟩

def slot (len g i : Nat) : Nat := (g + i) % len

theorem slot_eq (len g i : Nat) (inside : g < len) (bound : i ≤ len) :
    slot len g i = if g + i < len then g + i else g + i - len := by
  unfold slot
  split
  · rename_i small
    exact Nat.mod_eq_of_lt small
  · rename_i wraps
    rw [Nat.mod_eq_sub_mod (by omega), Nat.mod_eq_of_lt (by omega)]

theorem slot_lt (len g i : Nat) (inside : g < len) : slot len g i < len :=
  Nat.mod_lt _ (by omega)

theorem slot_ne (len g i j : Nat) (inside : g < len) (before : i < j) (bound : j < len) :
    slot len g i ≠ slot len g j := by
  rw [slot_eq len g i inside (by omega), slot_eq len g j inside (by omega)]
  split_ifs <;> omega

theorem slot_succ (len g i : Nat) : (slot len g i + 1) % len = slot len g (i + 1) := by
  unfold slot
  rw [Nat.mod_add_mod, Nat.add_assoc]

theorem slot_shift (len g i : Nat) : slot len (slot len g 1) i = slot len g (i + 1) := by
  unfold slot
  rw [Nat.mod_add_mod, Nat.add_assoc, Nat.add_comm 1 i]

/-- The ring holds `items`, oldest first, from slot `g` of the block on. -/
structure Layout (block : Block) (g : Nat) (s : LogBuffer) (items : List Byte) : Prop where
  lenKept : s.bufLen = block.len
  baseKept : s.basePtr = block.base
  inside : g < block.len
  getAt : s.getPtr = block.base + g
  putAt : s.putPtr = block.base + slot block.len g items.length
  fits : items.length < block.len
  contents : ∀ i byte, items[i]? = some byte → s.mem (block.base + slot block.len g i) = byte
  touchedInside : ∀ address ∈ s.touched,
    block.base ≤ address ∧ address < block.base + block.len

variable {block : Block} {g : Nat} {s : LogBuffer} {items : List Byte}

theorem Layout.idx_eq (layout : Layout block g s items) (aligned : block.len ∣ block.base)
    (k : Nat) (bound : k ≤ block.len) : s.idx (block.base + k) = k % block.len := by
  obtain ⟨blocks, base⟩ := aligned
  have space := block.inSpace
  have value : (block.base + k) % block.len = k % block.len := by
    rw [base, Nat.mul_add_mod]
  unfold LogBuffer.idx
  rw [layout.lenKept]
  by_cases below : block.base + k < 2 ^ 32
  · rw [Nat.mod_eq_of_lt below, value]
  · have top : block.base + k = 2 ^ 32 := by omega
    have last : k = block.len := by omega
    rw [top, Nat.mod_self, Nat.zero_mod, last, Nat.mod_self]

theorem Layout.inc_eq (layout : Layout block g s items) (aligned : block.len ∣ block.base)
    (i : Nat) :
    s.inc (block.base + slot block.len g i) = block.base + slot block.len g (i + 1) := by
  have inside := slot_lt block.len g i layout.inside
  unfold LogBuffer.inc
  rw [layout.baseKept, Nat.add_assoc, layout.idx_eq aligned _ (by omega), slot_succ]

theorem Layout.full_iff (layout : Layout block g s items) (aligned : block.len ∣ block.base)
    (two : 2 ≤ block.len) : s.full = true ↔ items.length = block.len - 1 := by
  have inside := layout.inside
  have fits := layout.fits
  have place := slot_lt block.len g items.length inside
  unfold LogBuffer.full
  rw [beq_iff_eq, layout.putAt, layout.getAt, Nat.add_assoc,
    layout.idx_eq aligned _ (by omega), layout.idx_eq aligned _ (by omega), slot_succ,
    Nat.mod_eq_of_lt inside, slot_eq block.len g _ inside (by omega)]
  split_ifs <;> omega

theorem Layout.empty_iff (layout : Layout block g s items) :
    s.empty = true ↔ items = [] := by
  have inside := layout.inside
  have fits := layout.fits
  unfold LogBuffer.empty
  rw [beq_iff_eq, layout.putAt, layout.getAt, slot_eq block.len g _ inside (by omega),
    ← List.length_eq_zero_iff]
  split_ifs <;> omega

theorem Layout.store (layout : Layout block g s items) (aligned : block.len ∣ block.base)
    (c : Byte) (space : items.length + 1 < block.len) :
    Layout block g (s.store c) (items ++ [c]) where
  lenKept := layout.lenKept
  baseKept := layout.baseKept
  inside := layout.inside
  getAt := layout.getAt
  putAt := by
    simp only [LogBuffer.store, layout.putAt, layout.inc_eq aligned, List.length_append,
      List.length_singleton]
  fits := by simpa using space
  contents := by
    intro i byte present
    simp only [LogBuffer.store, layout.putAt]
    rcases Nat.lt_trichotomy i items.length with before | rfl | after
    · rw [List.getElem?_append_left before] at present
      have other := slot_ne block.len g i items.length layout.inside before layout.fits
      rw [Function.update_of_ne (by omega)]
      exact layout.contents i byte present
    · have same : c = byte := by simpa using present
      rw [Function.update_self, same]
    · rw [List.getElem?_eq_none (by simp; omega)] at present
      contradiction
  touchedInside := by
    intro address member
    have place := slot_lt block.len g items.length layout.inside
    have put := layout.putAt
    simp only [LogBuffer.store, List.mem_append, List.mem_singleton] at member
    rcases member with old | rfl
    · exact layout.touchedInside address old
    · omega

theorem Layout.advance {oldest : Byte} (layout : Layout block g s (oldest :: items))
    (aligned : block.len ∣ block.base) :
    Layout block (slot block.len g 1) { s with getPtr := s.inc s.getPtr } items where
  lenKept := layout.lenKept
  baseKept := layout.baseKept
  inside := slot_lt _ _ _ layout.inside
  getAt := by
    have start : slot block.len g 0 = g := Nat.mod_eq_of_lt layout.inside
    have step := layout.inc_eq aligned 0
    rw [start] at step
    simp only [layout.getAt, step]
  putAt := by
    simp only [layout.putAt, slot_shift, List.length_cons]
  fits := by
    have := layout.fits
    simp only [List.length_cons] at this
    omega
  contents := by
    intro i byte present
    simp only [slot_shift]
    exact layout.contents (i + 1) byte (by simpa using present)
  touchedInside := layout.touchedInside

theorem Layout.congr {t : LogBuffer} (layout : Layout block g s items) (len : t.bufLen = s.bufLen)
    (base : t.basePtr = s.basePtr) (get : t.getPtr = s.getPtr) (put : t.putPtr = s.putPtr)
    (mem : t.mem = s.mem)
    (touched : ∀ address ∈ t.touched,
      block.base ≤ address ∧ address < block.base + block.len) :
    Layout block g t items where
  lenKept := len.trans layout.lenKept
  baseKept := base.trans layout.baseKept
  inside := layout.inside
  getAt := get.trans layout.getAt
  putAt := put.trans layout.putAt
  fits := layout.fits
  contents := by rw [mem]; exact layout.contents
  touchedInside := touched

/-- The buffer refines the queue: some slot is the oldest byte's. -/
def Represents (block : Block) (s : LogBuffer)
    (queue : BoundedQueue Byte (block.len - 1)) : Prop :=
  ∃ g, Layout block g s queue.items

section Refinement

variable {queue : BoundedQueue Byte (block.len - 1)}

theorem Represents.full_iff (represents : Represents block s queue)
    (aligned : block.len ∣ block.base) (two : 2 ≤ block.len) :
    s.full = true ↔ queue.items.length = block.len - 1 := by
  obtain ⟨_, layout⟩ := represents
  exact layout.full_iff aligned two

theorem Represents.empty_iff (represents : Represents block s queue) :
    s.empty = true ↔ queue.items = [] := by
  obtain ⟨_, layout⟩ := represents
  exact layout.empty_iff

theorem Represents.store (represents : Represents block s queue)
    (aligned : block.len ∣ block.base) (c : Byte) (space : queue.items.length < block.len - 1) :
    Represents block (s.store c) (queue.offer [c]) := by
  obtain ⟨g, layout⟩ := represents
  refine ⟨g, ?_⟩
  rw [BoundedQueue.offer_singleton_items queue c space]
  exact layout.store aligned c (by omega)

theorem Represents.putClobber (represents : Represents block s queue)
    (aligned : block.len ∣ block.base) (two : 2 ≤ block.len) (c : Byte) :
    Represents block (s.putClobber c) (queue.push [c]) := by
  have full := represents.full_iff aligned two
  have bounded := queue.bounded
  obtain ⟨g, layout⟩ := represents
  unfold LogBuffer.putClobber
  by_cases isFull : queue.items.length = block.len - 1
  · rw [if_pos (full.mpr isFull)]
    cases shape : queue.items with
    | nil =>
        simp only [shape, List.length_nil] at isFull
        omega
    | cons oldest others =>
        have size : others.length + 1 = block.len - 1 := by simpa [shape] using isFull
        rw [shape] at layout
        refine ⟨slot block.len g 1, ?_⟩
        rw [BoundedQueue.push_full_items queue c oldest others shape isFull]
        exact (layout.advance aligned).store aligned c (by omega)
  · rw [if_neg (mt full.mp isFull)]
    refine ⟨g, ?_⟩
    rw [BoundedQueue.push_singleton_items queue c (by omega)]
    exact layout.store aligned c (by omega)

theorem Represents.get (represents : Represents block s queue)
    (aligned : block.len ∣ block.base) {oldest : Byte} {others : List Byte}
    (shape : queue.items = oldest :: others) :
    ∃ t, s.get = some (oldest, t) ∧ Represents block t (queue.discard 1) := by
  have nonempty : ¬ s.empty = true := by simp [represents.empty_iff, shape]
  obtain ⟨g, layout⟩ := represents
  rw [shape] at layout
  have inside := layout.inside
  have start : slot block.len g 0 = g := Nat.mod_eq_of_lt inside
  have byte := layout.contents 0 oldest rfl
  rw [start, ← layout.getAt] at byte
  unfold LogBuffer.get
  rw [if_neg nonempty, byte]
  refine ⟨_, rfl, slot block.len g 1, ?_⟩
  rw [BoundedQueue.discard_items, shape]
  have advanced := layout.advance aligned
  refine advanced.congr rfl rfl rfl rfl rfl ?_
  intro address member
  rcases List.mem_append.mp member with old | new
  · exact layout.touchedInside address old
  · have := layout.getAt
    rw [List.mem_singleton.mp new]
    omega

theorem putLoop_offers (aligned : block.len ∣ block.base) (two : 2 ≤ block.len)
    (data : List Byte) (nPut : Nat) (represents : Represents block s queue) :
    Represents block (LogBuffer.putLoop data s nPut).1 (queue.offer data) ∧
      (LogBuffer.putLoop data s nPut).2 = nPut + min data.length queue.room := by
  induction data generalizing s queue nPut with
  | nil => simpa [LogBuffer.putLoop, BoundedQueue.offer_nil] using represents
  | cons c rest ih =>
      have full := represents.full_iff aligned two
      have bounded := queue.bounded
      by_cases isFull : queue.items.length = block.len - 1
      · have refused : s.put c = none := by simp [LogBuffer.put, full.mpr isFull]
        simp only [LogBuffer.putLoop, refused, BoundedQueue.offer_full queue _ isFull]
        exact ⟨represents, by simp [BoundedQueue.room, isFull]⟩
      · have space : queue.items.length < block.len - 1 := by omega
        have accepted : s.put c = some (s.store c) := by
          simp [LogBuffer.put, mt full.mp isFull]
        have rest := ih (nPut + 1) (represents.store aligned c space)
        simp only [LogBuffer.putLoop, accepted]
        rw [BoundedQueue.offer_cons queue c _ space]
        refine ⟨rest.1, rest.2.trans ?_⟩
        simp only [BoundedQueue.room, BoundedQueue.offer_singleton_items queue c space,
          List.length_append, List.length_cons, List.length_nil]
        omega

theorem putClobberLoop_pushes (aligned : block.len ∣ block.base) (two : 2 ≤ block.len)
    (data : List Byte) (nPut : Nat) (represents : Represents block s queue) :
    Represents block (LogBuffer.putClobberLoop data s nPut).1 (queue.push data) ∧
      (LogBuffer.putClobberLoop data s nPut).2 = nPut + data.length := by
  induction data generalizing s queue nPut with
  | nil => simpa [LogBuffer.putClobberLoop, BoundedQueue.push_nil] using represents
  | cons c rest ih =>
      have next := ih (nPut + 1) (represents.putClobber aligned two c)
      rw [BoundedQueue.push_cons]
      refine ⟨next.1, next.2.trans ?_⟩
      simp only [List.length_cons]
      omega

theorem getLoop_takes (aligned : block.len ∣ block.base) (size : Nat) (out : List Byte)
    (represents : Represents block s queue) :
    Represents block (LogBuffer.getLoop size s out).1 (queue.discard size) ∧
      (LogBuffer.getLoop size s out).2 = out ++ queue.items.take size := by
  induction size generalizing s queue out with
  | zero => simpa [LogBuffer.getLoop, BoundedQueue.discard_zero] using represents
  | succ size ih =>
      cases shape : queue.items with
      | nil =>
          have nothing : s.get = none := by
            simp [LogBuffer.get, represents.empty_iff.mpr shape]
          have same : queue.discard (size + 1) = queue := by
            ext1
            simp [shape]
          simpa [LogBuffer.getLoop, nothing, same] using represents
      | cons oldest others =>
          obtain ⟨t, taken, next⟩ := represents.get aligned shape
          have rest := ih (out ++ [oldest]) next
          rw [BoundedQueue.discard_discard, Nat.add_comm 1 size] at rest
          simp only [LogBuffer.getLoop, taken]
          refine ⟨rest.1, rest.2.trans ?_⟩
          simp [shape]

theorem Represents.flag (represents : Represents block s queue) (evf : BitVec 32) :
    Represents block { s with evf := evf } queue := by
  obtain ⟨g, layout⟩ := represents
  exact ⟨g, layout.congr rfl rfl rfl rfl rfl layout.touchedInside⟩

theorem Represents.setIf (represents : Represents block s queue) (nPut : Nat) :
    Represents block (if 0 < nPut then s.setEventFlag evfNonEmpty else s) queue := by
  split
  · exact represents.flag _
  · exact represents

theorem Represents.clearIf (represents : Represents block s queue) (bits : BitVec 32) :
    Represents block (if s.empty then s.clearEventFlag bits else s) queue := by
  split
  · exact represents.flag _
  · exact represents

end Refinement

theorem ringbuf_simulates (block : Block) (two : 2 ≤ block.len)
    (aligned : block.len ∣ block.base) :
    Machine.Simulates ringbuf (queueMachine (block.len - 1)) (Represents block) := by
  intro s queue call represents
  cases call with
  | put c size =>
      obtain ⟨after, count⟩ := putLoop_offers aligned two (LogBuffer.source c size) 0 represents
      refine ⟨?_, after.setIf _⟩
      simp [ringbuf, queueMachine, LogBuffer.call, LogBuffer.ringbufPut, queueCall, count]
  | putClobber c size =>
      obtain ⟨after, count⟩ :=
        putClobberLoop_pushes aligned two (LogBuffer.source c size) 0 represents
      exact ⟨by simp [ringbuf, queueMachine, LogBuffer.call, LogBuffer.ringbufPutClobber,
          queueCall, count],
        after.setIf _⟩
  | get size =>
      obtain ⟨after, out⟩ := getLoop_takes aligned size.toNat [] represents
      exact ⟨by simp [ringbuf, queueMachine, LogBuffer.call, LogBuffer.ringbufGet, queueCall, out],
        after.clearIf _⟩
  | getWait ret size =>
      obtain ⟨after, out⟩ := getLoop_takes aligned size.toNat [] represents
      by_cases timedOut : ret < 0
      · simpa [ringbuf, queueMachine, LogBuffer.call, LogBuffer.ringbufGetWait, queueCall,
          timedOut] using represents
      · have done := after.clearIf (~~~ evfNonEmpty)
        simp only [ringbuf, queueMachine, LogBuffer.call, LogBuffer.ringbufGetWait, queueCall,
          if_neg timedOut]
        exact ⟨by simp [out], done⟩

theorem ringbufInit_represents (block : Block) (mem : Memory) (two : 2 ≤ block.len) :
    Represents block (LogBuffer.ringbufInit block mem) BoundedQueue.empty := by
  have start : slot block.len 0 0 = 0 := Nat.mod_eq_of_lt (by omega)
  refine ⟨0, rfl, rfl, by omega, rfl, ?_, ?_, ?_, ?_⟩
  · simp [LogBuffer.ringbufInit, start]
  · simp only [BoundedQueue.empty_items, List.length_nil]
    omega
  · simp
  · simp [LogBuffer.ringbufInit]

/-- After `ringbuf_init` the buffer is a queue of capacity `len - 1` to every sequence of
calls, and it stays inside its memory block. -/
theorem ringbuf_refines_queue (block : Block) (mem : Memory) (calls : List Call)
    (two : 2 ≤ block.len) (aligned : block.len ∣ block.base) :
    ringbuf.replies (LogBuffer.ringbufInit block mem) calls =
        (queueMachine (block.len - 1)).replies BoundedQueue.empty calls ∧
      ∀ address ∈ (ringbuf.after (LogBuffer.ringbufInit block mem) calls).touched,
        block.base ≤ address ∧ address < block.base + block.len := by
  have simulates := ringbuf_simulates block two aligned
  have start := ringbufInit_represents block mem two
  refine ⟨simulates.replies_eq calls _ _ start, ?_⟩
  obtain ⟨_, layout⟩ := simulates.after_related calls _ _ start
  exact layout.touchedInside

/-- The block both callers use, and a put, a clobbering put and a get on it. -/
theorem ringbuf_refines_queue_8k :
    ringbuf.replies (LogBuffer.ringbufInit ⟨0x4000, 0x2000, by decide, by decide⟩ fun _ => 0)
        [.put (fun i => BitVec.ofNat 8 i) 3, .putClobber (fun _ => 7) 2, .get 4] =
      (queueMachine 0x1FFF).replies BoundedQueue.empty
        [.put (fun i => BitVec.ofNat 8 i) 3, .putClobber (fun _ => 7) 2, .get 4] :=
  (ringbuf_refines_queue ⟨0x4000, 0x2000, by decide, by decide⟩ (fun _ => 0)
    [.put (fun i => BitVec.ofNat 8 i) 3, .putClobber (fun _ => 7) 2, .get 4]
    (by decide) (by decide)).1

end VitaTools.RingBuf
