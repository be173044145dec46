import BmcCache.ByteBuffer
import BmcCache.TextCommands
import BmcCache.Trace

/-!
# The two regions of a bip buffer

A `bipbuf_t` is a queue of bytes in one block of memory.  Region A is read at its front; when the room behind it is
smaller than the room before it, new bytes go to region B at the start of the block.  The reader takes a pointer with
`bipbuf_peek_all`, reads through it without the lock while the writer goes on, and polls the bytes when it is done.

* `Bipbuf.Ok`, `Bipbuf.contents` — the regions do not overlap, and the bytes that wait;
* `Bipbuf.Ok.store`, `Bipbuf.Ok.grow`, `Bipbuf.Ok.poll` — what the operations do to them;
* `bipbuf_fifo` — a writer and a reader in any order: no byte is lost, repeated or overtaken, and none is written over
  while the reader looks at it.
-/

namespace BmcCache

open ByteBuffer List

/-- `bipbuf_t`; a pointer into the block is an offset. -/
structure Bipbuf where
  size : ℕ
  aStart : ℕ
  aEnd : ℕ
  bEnd : ℕ
  bInuse : Bool
  data : Bytes

namespace Bipbuf

/-- `bipbuf_init`; the block is as `malloc` gives it. -/
def init (data : Bytes) : Bipbuf := ⟨data.length, 0, 0, 0, false, data⟩

def unused (me : Bipbuf) : ℤ :=
  toInt32 (if me.bInuse then (me.aStart : ℤ) - me.bEnd else (me.size : ℤ) - me.aEnd)

def used (me : Bipbuf) : ℤ := toInt32 ((me.aEnd : ℤ) - me.aStart + me.bEnd)

def isEmpty (me : Bipbuf) : Bool := me.aStart == me.aEnd

/-- `__check_for_switch_to_b`; the size is an `unsigned long`, the offsets are `unsigned int`. -/
def checkForSwitchToB (me : Bipbuf) : Bipbuf :=
  if ((me.size : ℤ) - me.aEnd) % 2 ^ 64 < ((me.aStart : ℤ) - me.bEnd) % 2 ^ 32 then
    { me with bInuse := true }
  else me

/-- Where the next byte goes. -/
def tail (me : Bipbuf) : ℕ := if me.bInuse then me.bEnd else me.aEnd

/-- The end of `bipbuf_push` and of `bipbuf_offer`. -/
def advance (me : Bipbuf) (size : ℕ) : Bipbuf :=
  checkForSwitchToB <|
    if me.bInuse then { me with bEnd := (me.bEnd + size) % 2 ^ 32 } else { me with aEnd := (me.aEnd + size) % 2 ^ 32 }

def request (me : Bipbuf) (size : ℤ) : Option ℕ := if me.unused < size then none else some me.tail

/-- `bipbuf_push`; no caller has a negative size. -/
def push (me : Bipbuf) (size : ℕ) : ℕ × Bipbuf := if me.unused < size then (0, me) else (size, me.advance size)

/-- `bipbuf_offer`; a copy that leaves the block fails. -/
def offer (me : Bipbuf) (src : Bytes) : Option (ℕ × Bipbuf) :=
  if me.unused < src.length then some (0, me)
  else (storeBlock me.data me.tail src).map fun data =>
    (src.length, { me with data := data }.advance src.length)

def peekAll (me : Bipbuf) : Option (ℕ × ℕ) :=
  if me.isEmpty then none else some (me.aStart, (((me.aEnd : ℤ) - me.aStart) % 2 ^ 32).toNat)

def poll (me : Bipbuf) (size : ℕ) : Option ℕ × Bipbuf :=
  if me.isEmpty then (none, me)
  else if me.size < (me.aStart + size) % 2 ^ 32 then (none, me)
  else
    let moved := { me with aStart := (me.aStart + size) % 2 ^ 32 }
    let moved :=
      if moved.aStart = moved.aEnd then
        if me.bInuse then { moved with aStart := 0, aEnd := me.bEnd, bEnd := 0, bInuse := false }
        else { moved with aStart := 0, aEnd := 0 }
      else moved
    (some me.aStart, moved.checkForSwitchToB)

/-! ### The queue in the block -/

/-- The bytes that wait: those of region A, then those of region B. -/
def contents (me : Bipbuf) : Bytes := slice me.data me.aStart (me.aEnd - me.aStart) ++ slice me.data 0 me.bEnd

structure Ok (me : Bipbuf) : Prop where
  block : me.data.length = me.size ∧ me.size < 2 ^ 32
  regions : me.bEnd ≤ me.aStart ∧ me.aStart ≤ me.aEnd ∧ me.aEnd ≤ me.size
  unusedB : me.bInuse = false → me.bEnd = 0
  empty : me.aStart = me.aEnd → me.aStart = 0 ∧ me.bInuse = false

def room (me : Bipbuf) : ℕ := if me.bInuse then me.aStart - me.bEnd else me.size - me.aEnd

variable {me : Bipbuf}

theorem Ok.init {data : Bytes} (h : data.length < 2 ^ 32) : (init data).Ok :=
  ⟨⟨rfl, h⟩, ⟨le_rfl, le_rfl, Nat.zero_le _⟩, fun _ => rfl, fun _ => ⟨rfl, rfl⟩⟩

/-- An `int` of what is unused never exceeds it, so what the test lets through fits. -/
theorem Ok.unused_le (h : me.Ok) : me.unused ≤ me.room := by
  have hreg := h.regions
  have hblock := h.block
  rw [unused, room, toInt32]
  split <;> split <;> omega

theorem Ok.request (h : me.Ok) {want p : ℕ} (hreq : me.request want = some p) :
    p = me.tail ∧ (want : ℤ) ≤ me.unused ∧ want ≤ me.room := by
  have hle := h.unused_le
  rw [Bipbuf.request] at hreq
  split at hreq
  · simp at hreq
  · refine ⟨by simpa using hreq.symm, ?_, ?_⟩ <;> omega

theorem push_eq (me : Bipbuf) {n : ℕ} (h : (n : ℤ) ≤ me.unused) : me.push n = (n, me.advance n) :=
  if_neg (by omega)

theorem Ok.length_contents (h : me.Ok) : me.contents.length = me.aEnd - me.aStart + me.bEnd := by
  have hreg := h.regions
  have hblock := h.block
  rw [contents, length_append, slice_length _ _ _ (by omega), slice_length _ _ _ (by omega)]

theorem Ok.contents_eq_nil (h : me.Ok) : me.contents = [] ↔ me.aStart = me.aEnd := by
  have hreg := h.regions
  rw [← length_eq_zero_iff, h.length_contents]
  constructor
  · omega
  · intro heq
    have := (h.empty heq).1
    omega

/-- What there is room for ends inside the block. -/
theorem Ok.tail_add_le (h : me.Ok) {n : ℕ} (hfit : n ≤ me.room) : me.tail + n ≤ me.data.length := by
  have hreg := h.regions
  have hblock := h.block
  rw [tail]
  rw [room] at hfit
  split at hfit <;> simp_all <;> omega

theorem frame_advance (me : Bipbuf) (n : ℕ) : (me.advance n).data = me.data ∧ (me.advance n).size = me.size := by
  unfold advance checkForSwitchToB
  split_ifs <;> exact ⟨rfl, rfl⟩

theorem size_poll (me : Bipbuf) (n : ℕ) : (me.poll n).2.size = me.size := by
  simp only [poll, checkForSwitchToB]
  split_ifs <;> rfl

/-- A block of region A, as it stands in the queue. -/
theorem Ok.slice_contents (h : me.Ok) {k n : ℕ} (hk : k + n ≤ me.aEnd - me.aStart) :
    loadBlock me.data (me.aStart + k) n = some ((me.contents.drop k).take n) := by
  have hreg := h.regions
  have hblock := h.block
  have hlen : (slice me.data me.aStart (me.aEnd - me.aStart)).length = me.aEnd - me.aStart :=
    slice_length _ _ _ (by omega)
  rw [loadBlock_eq _ _ _ (by omega), contents, drop_append_of_le_length (by omega),
    take_append_of_le_length (by rw [length_drop]; omega), slice, slice, drop_take, take_take, drop_drop,
    Nat.min_eq_left (by omega)]

theorem contents_checkForSwitchToB (me : Bipbuf) : me.checkForSwitchToB.contents = me.contents := by
  unfold checkForSwitchToB
  split <;> rfl

theorem Ok.checkForSwitchToB (h : me.Ok) : me.checkForSwitchToB.Ok ∧
    me.checkForSwitchToB.aStart = me.aStart ∧ me.checkForSwitchToB.aEnd = me.aEnd := by
  have hreg := h.regions
  have hblock := h.block
  unfold Bipbuf.checkForSwitchToB
  split
  · -- region B is not turned on in an empty buffer: it would have no room
    refine ⟨⟨hblock, hreg, nofun, fun heq => ?_⟩, rfl, rfl⟩
    have hzero : me.aStart = 0 := (h.empty heq).1
    omega
  · exact ⟨h, rfl, rfl⟩

/-- **Filling.**  Bytes written where the next byte goes, as many as there is room for, stay in the block and leave the
bytes that wait alone. -/
theorem Ok.store (h : me.Ok) {src : Bytes} (hfit : src.length ≤ me.room) :
    ∃ data, storeBlock me.data me.tail src = some data ∧ { me with data := data }.Ok ∧
      { me with data := data }.contents = me.contents ∧ slice data me.tail src.length = src := by
  have hreg := h.regions
  have hblock := h.block
  have hin := h.tail_add_le hfit
  refine ⟨overwrite me.data me.tail src, storeBlock_eq _ _ _ hin,
    ⟨⟨?_, hblock.2⟩, hreg, h.unusedB, h.empty⟩, ?_,
    slice_overwrite_self _ _ _ (by omega)⟩
  · rw [overwrite_length _ _ _ hin, hblock.1]
  · rw [contents, contents]
    rw [tail, room] at *
    cases hb : me.bInuse with
    | true =>
      simp only [hb, if_true] at hfit hin ⊢
      rw [slice_overwrite_ne _ _ _ hin (by omega), slice_overwrite_ne _ _ _ hin (by omega)]
    | false =>
      have hzero := h.unusedB hb
      simp only [hb, Bool.false_eq_true, if_false] at hfit hin ⊢
      rw [slice_overwrite_ne _ _ _ hin (by omega), slice_overwrite_ne _ _ _ hin (by omega)]

/-- **Pushing.**  The bytes there join the queue at its end; region A keeps its start and does not shrink. -/
theorem Ok.grow (h : me.Ok) {n : ℕ} (hfit : n ≤ me.room) :
    (me.advance n).Ok ∧ (me.advance n).contents = me.contents ++ slice me.data me.tail n ∧
      (me.advance n).aStart = me.aStart ∧ me.aEnd ≤ (me.advance n).aEnd := by
  have hreg := h.regions
  have hblock := h.block
  rw [advance, contents_checkForSwitchToB]
  by_cases hb : me.bInuse = true
  · simp only [room, hb, if_true] at hfit
    have hok : Ok { me with bEnd := me.bEnd + n } :=
      ⟨hblock, by simp only; omega, by simp [hb], fun heq => by simpa [hb] using h.empty heq⟩
    rw [if_pos hb, Nat.mod_eq_of_lt (by omega)]
    obtain ⟨hok', hstart, hend⟩ := hok.checkForSwitchToB
    refine ⟨hok', ?_, hstart, hend.ge⟩
    simp only [contents, tail, hb, if_true, append_assoc]
    rw [← slice_append, Nat.zero_add]
  · have hzero := h.unusedB (Bool.eq_false_of_not_eq_true hb)
    simp only [room, hb, Bool.false_eq_true, if_false] at hfit
    have hok : Ok { me with aEnd := me.aEnd + n } :=
      ⟨hblock, by simp only; omega, h.unusedB, fun heq => h.empty (by simp only at heq; omega)⟩
    rw [if_neg hb, Nat.mod_eq_of_lt (by omega)]
    obtain ⟨hok', hstart, hend⟩ := hok.checkForSwitchToB
    refine ⟨hok', ?_, hstart, (Nat.le_add_right _ n).trans hend.ge⟩
    simp only [contents, tail, hb, Bool.false_eq_true, if_false, hzero]
    rw [show me.aEnd + n - me.aStart = me.aEnd - me.aStart + n by omega, ← slice_append,
      show me.aStart + (me.aEnd - me.aStart) = me.aEnd by omega]
    simp [slice]

theorem Ok.peekAll (h : me.Ok) {p m : ℕ} (hpeek : me.peekAll = some (p, m)) :
    p = me.aStart ∧ m = me.aEnd - me.aStart ∧ 0 < m := by
  have hreg := h.regions
  have hblock := h.block
  rw [Bipbuf.peekAll] at hpeek
  split at hpeek
  · simp at hpeek
  · rename_i hne
    have hne : me.aStart ≠ me.aEnd := by simpa [isEmpty] using hne
    simp only [Option.some.injEq, Prod.mk.injEq] at hpeek
    omega

/-- **Polling** a part of region A takes it from the front of the queue. -/
theorem Ok.poll (h : me.Ok) {n : ℕ} (hpos : 0 < me.aEnd - me.aStart) (hn : n ≤ me.aEnd - me.aStart) :
    (me.poll n).1 = some me.aStart ∧ (me.poll n).2.Ok ∧ (me.poll n).2.contents = me.contents.drop n := by
  have hreg := h.regions
  have hblock := h.block
  have hlen : (slice me.data me.aStart n).length = n := slice_length _ _ _ (by omega)
  have hcut : me.contents.drop n
      = slice me.data (me.aStart + n) (me.aEnd - me.aStart - n) ++ slice me.data 0 me.bEnd := by
    rw [contents, show me.aEnd - me.aStart = n + (me.aEnd - me.aStart - n) by omega, ← slice_append, append_assoc,
      drop_append_of_le_length (by omega), drop_eq_nil_of_le (by omega), nil_append, Nat.add_sub_cancel_left]
  have hmod : (me.aStart + n) % 2 ^ 32 = me.aStart + n := Nat.mod_eq_of_lt (by omega)
  simp only [Bipbuf.poll, isEmpty, hmod, beq_iff_eq, show me.aStart ≠ me.aEnd by omega,
    show ¬ me.size < me.aStart + n by omega, if_false, contents_checkForSwitchToB, true_and, hcut]
  by_cases hend : me.aStart + n = me.aEnd
  · rw [if_pos hend, show me.aEnd - me.aStart - n = 0 by omega]
    cases hb : me.bInuse with
    | true =>
      have hok : Ok ⟨me.size, 0, me.bEnd, 0, false, me.data⟩ :=
        ⟨hblock, ⟨le_rfl, Nat.zero_le _, by simp only; omega⟩, fun _ => rfl, fun _ => ⟨rfl, rfl⟩⟩
      exact ⟨hok.checkForSwitchToB.1, by simp [contents, slice]⟩
    | false =>
      have hzero := h.unusedB hb
      have hok : Ok ⟨me.size, 0, 0, me.bEnd, false, me.data⟩ :=
        ⟨hblock, ⟨hzero.le, le_rfl, Nat.zero_le _⟩, fun _ => hzero, fun _ => ⟨rfl, rfl⟩⟩
      exact ⟨hok.checkForSwitchToB.1, by simp [contents, slice, hzero]⟩
  · rw [if_neg hend]
    have hok : Ok { me with aStart := me.aStart + n } :=
      ⟨hblock, by simp only; omega, h.unusedB, fun heq => absurd heq hend⟩
    exact ⟨hok.checkForSwitchToB.1, by rw [contents, Nat.sub_sub]⟩

end Bipbuf

/-! ### A writer and a reader -/

/-- The buffer, the pointer and size the reader has from its last `bipbuf_peek_all`, and what went in and came out. -/
structure BipPipe where
  buf : Bipbuf
  view : Option (ℕ × ℕ)
  accepted : Bytes
  taken : Bytes

inductive BipEvent where
  /-- `bipbuf_request` of some size, a write there, and `bipbuf_push` of a number of bytes, under the lock. -/
  | write (want : ℕ) (src : Bytes) (size : ℕ)
  | offer (src : Bytes)
  | peek
  /-- The reader gives back the bytes it sees, or the first of them. -/
  | poll (size : ℕ)

/-- The writer keeps to the size it asked for. -/
def BipEvent.Proper : BipEvent → Prop
  | .write want src size => src.length ≤ want ∧ size ≤ want
  | _ => True

namespace BipPipe

def start (data : Bytes) : BipPipe := ⟨Bipbuf.init data, none, [], []⟩

/-- One call; it fails where an access leaves the block or where `bipbuf_poll` answers `NULL`, which no caller
expects. -/
def step (s : BipPipe) : BipEvent → Option BipPipe
  | .write want src size =>
    match s.buf.request want with
    | none => some s
    | some p => do
      let data ← storeBlock s.buf.data p src
      let (pushed, buf) := { s.buf with data := data }.push size
      let bytes ← loadBlock buf.data p pushed
      some { s with buf := buf, accepted := s.accepted ++ bytes }
  | .offer src => do
    let (pushed, buf) ← s.buf.offer src
    some { s with buf := buf, accepted := s.accepted ++ src.take pushed }
  | .peek => some { s with view := s.buf.peekAll }
  | .poll size =>
    match s.view with
    | none => some s
    | some (p, seen) => do
      let n := min size seen
      let bytes ← loadBlock s.buf.data p n
      let _ ← (s.buf.poll n).1
      some { s with buf := (s.buf.poll n).2, view := none, taken := s.taken ++ bytes }

structure Inv (size : ℕ) (s : BipPipe) : Prop where
  ok : s.buf.Ok
  whole : s.buf.size = size
  fifo : s.accepted = s.taken ++ s.buf.contents
  seen : ∀ p m, s.view = some (p, m) → p = s.buf.aStart ∧ 0 < m ∧ p + m ≤ s.buf.aEnd

variable {size : ℕ} {s : BipPipe}

/-- The bytes a reader sees are the front of the queue. -/
theorem Inv.view_eq (h : Inv size s) {p m n : ℕ} (hview : s.view = some (p, m)) (hn : n ≤ m) :
    loadBlock s.buf.data p n = some (s.buf.contents.take n) := by
  obtain ⟨rfl, -, hm⟩ := h.seen p m hview
  exact h.ok.slice_contents (k := 0) (by omega)

/-- What the writer adds behind the queue does not disturb the reader. -/
theorem Inv.grow (h : Inv size s) {data src : Bytes} {n : ℕ} (hok : { s.buf with data := data }.Ok)
    (hsame : { s.buf with data := data }.contents = s.buf.contents) (hfit : n ≤ s.buf.room)
    (hsrc : slice data s.buf.tail n = src) :
    Inv size { s with buf := { s.buf with data := data }.advance n, accepted := s.accepted ++ src } := by
  obtain ⟨hok', hcont, hstart, hend⟩ := hok.grow hfit
  refine ⟨hok', (Bipbuf.frame_advance _ n).2.trans h.whole, ?_, fun p m hview => ?_⟩
  · show s.accepted ++ src = s.taken ++ _
    rw [hcont, hsame, h.fifo, append_assoc]
    exact congrArg _ (congrArg _ hsrc.symm)
  · obtain ⟨hp, hm, hpm⟩ := h.seen p m hview
    exact ⟨hp.trans hstart.symm, hm, hpm.trans hend⟩

theorem Inv.step (h : Inv size s) (e : BipEvent) (hp : e.Proper) : ∃ s', s.step e = some s' ∧ Inv size s' := by
  cases e with
  | write want src k =>
    rw [BipPipe.step]
    cases hreq : s.buf.request want with
    | none => exact ⟨s, rfl, h⟩
    | some p =>
      obtain ⟨rfl, hunused, hroom⟩ := h.ok.request hreq
      obtain ⟨data, hstore, hok, hsame, -⟩ := h.ok.store (hp.1.trans hroom)
      have hk : (k : ℤ) ≤ want := by exact_mod_cast hp.2
      have hpush := Bipbuf.push_eq { s.buf with data := data } (hk.trans hunused)
      have hload : loadBlock data s.buf.tail k = some (slice data s.buf.tail k) :=
        loadBlock_eq _ _ _ (hok.tail_add_le (hp.2.trans hroom))
      refine ⟨_, ?_, h.grow hok hsame (hp.2.trans hroom) rfl⟩
      simp only [hstore, hpush, Bipbuf.frame_advance, hload, Option.bind_eq_bind, Option.bind_some]
  | offer src =>
    rw [BipPipe.step, Bipbuf.offer]
    split
    · exact ⟨s, by simp, h⟩
    · have hroom : src.length ≤ s.buf.room := by have := h.ok.unused_le; omega
      obtain ⟨data, hstore, hok, hsame, hread⟩ := h.ok.store hroom
      refine ⟨_, ?_, h.grow hok hsame hroom hread⟩
      simp only [hstore, Option.map_some, Option.bind_eq_bind, Option.bind_some, take_length]
  | peek =>
    refine ⟨_, rfl, h.ok, h.whole, h.fifo, fun p m hview => ?_⟩
    obtain ⟨hp, hm, hpos⟩ := h.ok.peekAll hview
    have hreg := h.ok.regions
    show p = s.buf.aStart ∧ 0 < m ∧ p + m ≤ s.buf.aEnd
    omega
  | poll k =>
    rw [BipPipe.step]
    cases hview : s.view with
    | none => exact ⟨s, rfl, h⟩
    | some v =>
      obtain ⟨p, m⟩ := v
      have hk : min k m ≤ m := Nat.min_le_right k m
      obtain ⟨hp', hm, hend⟩ := h.seen p m hview
      obtain ⟨hsome, hok, hcont⟩ := h.ok.poll (n := min k m) (by omega) (by omega)
      refine ⟨⟨(s.buf.poll (min k m)).2, none, s.accepted, s.taken ++ s.buf.contents.take (min k m)⟩, ?_,
        hok, (Bipbuf.size_poll _ _).trans h.whole, ?_, nofun⟩
      · simp only [h.view_eq hview hk, hsome, Option.bind_eq_bind, Option.bind_some]
      · show s.accepted = s.taken ++ s.buf.contents.take (min k m) ++ _
        rw [hcont, append_assoc, take_append_drop, h.fifo]

end BipPipe

/-- **A bip buffer is a queue of bytes.** A writer and a reader take turns in any order. No access leaves the block,
no poll is refused; the bytes that were accepted are those the reader has taken, followed by those that wait, and
`bipbuf_used` counts these; what the reader sees stays the front of them; an empty buffer offers all of its block.
-/
theorem bipbuf_fifo (data : Bytes) (es : List BipEvent) (hsize : data.length < 2 ^ 31)
    (hp : ∀ e ∈ es, e.Proper) :
    ∃ s, es.foldlM BipPipe.step (BipPipe.start data) = some s ∧ s.accepted = s.taken ++ s.buf.contents ∧
      s.buf.used = s.buf.contents.length ∧ s.buf.contents.length ≤ data.length ∧
      (∀ p m, s.view = some (p, m) → loadBlock s.buf.data p m = some (s.buf.contents.take m)) ∧
      (s.buf.contents = [] → s.buf.unused = data.length) := by
  have hstart : BipPipe.Inv data.length (BipPipe.start data) :=
    ⟨Bipbuf.Ok.init (by omega), rfl, by simp [BipPipe.start, Bipbuf.init, Bipbuf.contents, slice], nofun⟩
  obtain ⟨s, hrun, hinv⟩ := Trace.foldlM_invariant (BipPipe.Inv data.length) (fun _ e h => h.step e) _ es hstart
    (Trace.allPartial_of_forall hp)
  have hreg := hinv.ok.regions
  have hwhole := hinv.whole
  have hlen := hinv.ok.length_contents
  refine ⟨s, hrun, hinv.fifo, ?_, by omega, fun p m hview => hinv.view_eq hview le_rfl, fun hnil => ?_⟩
  · rw [Bipbuf.used, toInt32, if_pos (by omega), hlen]
    omega
  · have hend := hinv.ok.contents_eq_nil.mp hnil
    obtain ⟨hzero, hb⟩ := hinv.ok.empty hend
    rw [Bipbuf.unused, if_neg (by simp [hb]), toInt32, if_pos (by omega)]
    omega

/-- The second write goes to region B while the reader looks at region A. -/
theorem bipbuf_fifo_wrapped :
    ∃ s, [.offer [1, 2, 3], .peek, .poll 2, .peek, .write 2 [4, 5] 2, .poll 1].foldlM BipPipe.step
      (BipPipe.start [0, 0, 0, 0]) = some s ∧ s.accepted = s.taken ++ s.buf.contents := by
  obtain ⟨s, hrun, hfifo, -⟩ := bipbuf_fifo [0, 0, 0, 0]
    [.offer [1, 2, 3], .peek, .poll 2, .peek, .write 2 [4, 5] 2, .poll 1] (by decide) (by simp [BipEvent.Proper])
  exact ⟨s, hrun, hfifo⟩

end BmcCache
