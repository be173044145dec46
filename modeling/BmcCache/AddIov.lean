import Mathlib.Data.List.GetD
import Mathlib.Data.List.Induction
import BmcCache.Xdp

/-!
# Buffers packed into the messages of a UDP reply

`add_iov` collects the buffers of a reply in one array of iovecs, cut into messages that fit a datagram; each message
is a `msghdr` that points into the array.  Both arrays grow by `realloc`, and the pointers are then set again.

* `SendConn` — the fields of `conn` these functions work on; pointers into `c->iov` are indices;
* `ensureIovSpace`, `addMsghdr`, `addIov` — the functions of `memcached.c`;
* `Packing` — what the arrays stand for: the buffers of each finished message and of the last one;
* `addIov_refines` — `add_iov` keeps the arrays in step with `Packing.add`;
* `Packing.ofBuffers_filled` — unless most buffers are tiny every message but the last is filled to the brim.
-/

namespace BmcCache

open List

@[simp] abbrev udpMaxPayloadSize : ℕ := 1400
@[simp] abbrev udpHeaderSize : ℕ := 8
@[simp] abbrev iovMax : ℕ := 1024

/-- `struct msghdr`: the index of the first iovec in `c->iov` and the number of iovecs. -/
structure Msghdr where
  iov : ℕ
  iovlen : ℕ
  deriving DecidableEq, Repr, Inhabited

/-- The reply a `conn` is building or sending.  An iovec is the bytes it points to; `iovsize` and `msgsize` are the
lengths of the two lists. -/
structure SendConn where
  requestId : ℕ
  iov : List Bytes
  iovused : ℕ
  msglist : List Msghdr
  msgused : ℕ
  msgcurr : ℕ
  msgbytes : ℕ
  deriving DecidableEq, Repr

/-! ### Building the reply -/

/-- `Point all the msghdr structures at the new list.` -/
def repoint : ℕ → List Msghdr → List Msghdr
  | _, [] => []
  | iovnum, m :: ms => { m with iov := iovnum } :: repoint (iovnum + m.iovlen) ms

/-- `ensure_iov_space`; what `realloc` leaves in the new half of the array is never read. -/
def ensureIovSpace (c : SendConn) : SendConn :=
  if c.iov.length ≤ c.iovused then
    { c with
      iov := c.iov ++ replicate c.iov.length []
      msglist := repoint 0 (c.msglist.take c.msgused) ++ c.msglist.drop c.msgused }
  else c

/-- The part of a round of `add_iov` that takes as much of the buffer as fits into the last message; the second
component is what is left of it. -/
def putIovec (c : SendConn) (buf : Bytes) : SendConn × Bytes :=
  let c := ensureIovSpace c
  let leftover :=
    if udpMaxPayloadSize < buf.length + c.msgbytes then buf.length + c.msgbytes - udpMaxPayloadSize else 0
  let len := buf.length - leftover
  let m := c.msglist.getD (c.msgused - 1) default
  ({ c with
      iov := c.iov.set (m.iov + m.iovlen) (buf.take len)
      msgbytes := c.msgbytes + len
      iovused := c.iovused + 1
      msglist := c.msglist.set (c.msgused - 1) { m with iovlen := m.iovlen + 1 } }, buf.drop len)

/-- `add_msghdr` up to the room for the UDP header. -/
def pushMsghdr (c : SendConn) : SendConn :=
  let msglist :=
    if c.msglist.length = c.msgused then c.msglist ++ replicate c.msglist.length default else c.msglist
  { c with
    msglist := msglist.set c.msgused ⟨c.iovused, 0⟩
    msgbytes := 0
    msgused := c.msgused + 1 }

/-- `add_msghdr`.  The call `add_iov(c, NULL, UDP_HEADER_SIZE)` finds an empty message, so it is one round that asks
for no other message (`addMsghdr_eq`). -/
def addMsghdr (c : SendConn) : SendConn := (putIovec (pushMsghdr c) (replicate udpHeaderSize 0)).1

/-- One round of the loop of `add_iov`: a new message if the last one is full. -/
def addIovRound (c : SendConn) (buf : Bytes) : SendConn × Bytes :=
  let m := c.msglist.getD (c.msgused - 1) default
  putIovec (if m.iovlen = iovMax ∨ udpMaxPayloadSize ≤ c.msgbytes then addMsghdr c else c) buf

/-- `do .. while (leftover > 0)`; every round but the last takes a byte, so one round more than bytes is enough. -/
def addIovLoop : ℕ → SendConn → Bytes → SendConn
  | 0, c, _ => c
  | fuel + 1, c, buf =>
    let (c, left) := addIovRound c buf
    if left = [] then c else addIovLoop fuel c left

/-- `add_iov` on a UDP connection. -/
def addIov (c : SendConn) (buf : Bytes) : SendConn := addIovLoop (buf.length + 1) c buf

/-- What `process_command` does before it runs a command. -/
def startReply (c : SendConn) : SendConn := addMsghdr { c with msgcurr := 0, msgused := 0, iovused := 0 }

def udpReply (c : SendConn) (bufs : List Bytes) : SendConn := bufs.foldl addIov (startReply c)

/-! ### What the arrays stand for -/

/-- The headers of messages whose iovecs lie one behind the other from index `p` on. -/
def layout : ℕ → List (List Bytes) → List Msghdr
  | _, [] => []
  | p, m :: ms => ⟨p, m.length⟩ :: layout (p + m.length) ms

theorem layout_append (p : ℕ) (ms ns : List (List Bytes)) :
    layout p (ms ++ ns) = layout p ms ++ layout (p + ms.flatten.length) ns := by
  induction ms generalizing p with
  | nil => simp [layout]
  | cons m ms ih => simp [layout, ih, Nat.add_assoc]

@[simp] theorem layout_length (p : ℕ) (ms : List (List Bytes)) : (layout p ms).length = ms.length := by
  induction ms generalizing p with
  | nil => rfl
  | cons m ms ih => simp [layout, ih]

theorem layout_getD (dead free : List Msghdr) (p : ℕ) (m : List Bytes) (ms : List (List Bytes)) :
    (dead ++ layout p (m :: ms) ++ free).getD dead.length default = ⟨p, m.length⟩ := by
  rw [append_assoc, getD_append_right _ _ _ _ le_rfl]
  simp [layout]

theorem layout_iov_lt {p : ℕ} {ms : List (List Bytes)} (hne : ∀ m ∈ ms, m ≠ []) {x : Msghdr}
    (hx : x ∈ layout p ms) : x.iov < p + ms.flatten.length := by
  induction ms generalizing p with
  | nil => cases hx
  | cons m ms ih =>
    have hm := length_pos_iff.mpr (hne m (by simp))
    rw [flatten_cons, length_append]
    rcases mem_cons.mp hx with rfl | hx
    · show p < p + (m.length + ms.flatten.length)
      omega
    · have := ih (fun m hm => hne m (by simp [hm])) hx
      omega

theorem repoint_layout (p : ℕ) (ms : List (List Bytes)) : repoint p (layout p ms) = layout p ms := by
  induction ms generalizing p with
  | nil => rfl
  | cons m ms ih => simp [layout, repoint, ih]

/-- The arrays hold the messages `ms`, each a list of iovecs. -/
structure Carries (c : SendConn) (ms : List (List Bytes)) : Prop where
  iov : ∃ free, c.iov = ms.flatten ++ free
  iovused : c.iovused = ms.flatten.length
  msglist : ∃ free, c.msglist = layout 0 ms ++ free
  msgused : c.msgused = ms.length
  iovsize : 0 < c.iov.length
  msgsize : 0 < c.msglist.length

section

variable {c : SendConn} {ms front : List (List Bytes)} {last : List Bytes}

@[simp] theorem ensureIovSpace_msgbytes (c : SendConn) : (ensureIovSpace c).msgbytes = c.msgbytes := by
  unfold ensureIovSpace
  split <;> rfl

/-- Growing the array keeps every message and leaves room for an iovec. -/
theorem carries_ensureIovSpace (h : Carries c ms) :
    Carries (ensureIovSpace c) ms ∧ (ensureIovSpace c).iovused < (ensureIovSpace c).iov.length := by
  obtain ⟨freeI, hI⟩ := h.iov
  obtain ⟨freeM, hM⟩ := h.msglist
  have hpos := h.iovsize
  have htake : c.msglist.take c.msgused = layout 0 ms := by
    rw [hM, take_left' (by rw [layout_length, h.msgused])]
  have hdrop : c.msglist.drop c.msgused = freeM := by
    rw [hM, drop_left' (by rw [layout_length, h.msgused])]
  unfold ensureIovSpace
  split
  · rename_i hfull
    have hmsg : repoint 0 (c.msglist.take c.msgused) ++ c.msglist.drop c.msgused = c.msglist := by
      rw [htake, hdrop, repoint_layout, hM]
    refine ⟨⟨⟨freeI ++ replicate c.iov.length [], ?_⟩, h.iovused, ⟨freeM, ?_⟩, h.msgused, ?_, ?_⟩, ?_⟩
    · simp only
      rw [hI, append_assoc]
    · simp only
      rw [hmsg, hM]
    · simp only [length_append]
      omega
    · simp only
      rw [hmsg]
      exact h.msgsize
    · have hle : c.iovused ≤ c.iov.length := by
        rw [h.iovused, hI, length_append]
        omega
      simp only [length_append, length_replicate]
      omega
  · exact ⟨h, by omega⟩

theorem Carries.msgused_pred (h : Carries c (front ++ [last])) : c.msgused - 1 = front.length := by
  rw [h.msgused, length_append, length_singleton, Nat.add_sub_cancel]

theorem Carries.lastHdr (h : Carries c (front ++ [last])) :
    c.msglist.getD front.length default = ⟨front.flatten.length, last.length⟩ := by
  obtain ⟨freeM, hM⟩ := h.msglist
  have hget := layout_getD (layout 0 front) freeM (0 + front.flatten.length) last []
  rw [layout_length, Nat.zero_add] at hget
  rw [hM, layout_append, Nat.zero_add, hget]

theorem carries_pushMsghdr (h : Carries c ms) : Carries (pushMsghdr c) (ms ++ [[]]) := by
  obtain ⟨freeI, hI⟩ := h.iov
  obtain ⟨freeM, hM⟩ := h.msglist
  have hpos := h.msgsize
  have hset : ∀ m x free, (layout 0 ms ++ m :: free).set c.msgused x = layout 0 ms ++ x :: free := by
    intro m x free
    rw [h.msgused, ← layout_length 0 ms]
    simp
  have hlay : layout 0 (ms ++ [[]]) = layout 0 ms ++ [⟨c.iovused, 0⟩] := by
    rw [layout_append, h.iovused]
    simp [layout]
  have hmsg : ∃ free, (pushMsghdr c).msglist = layout 0 (ms ++ [[]]) ++ free := by
    rw [hlay]
    simp only [pushMsghdr]
    split
    · rename_i hfull
      have hnil : freeM = [] := by
        rw [hM, length_append, layout_length, h.msgused] at hfull
        exact length_eq_zero_iff.mp (by omega)
      obtain ⟨k, hk⟩ : ∃ k, c.msglist.length = k + 1 := ⟨c.msglist.length - 1, by omega⟩
      rw [hk, replicate_succ, hM, hnil, append_nil, hset]
      exact ⟨replicate k default, by simp⟩
    · rename_i hfull
      cases freeM with
      | nil =>
        rw [hM, append_nil, layout_length, h.msgused] at hfull
        exact absurd rfl hfull
      | cons m free =>
        rw [hM, hset]
        exact ⟨free, by simp⟩
  refine ⟨⟨freeI, ?_⟩, ?_, hmsg, ?_, h.iovsize, ?_⟩
  · simp only [pushMsghdr, flatten_append, flatten_singleton, append_nil]
    exact hI
  · simp only [pushMsghdr, flatten_append, flatten_singleton, append_nil]
    exact h.iovused
  · simp only [pushMsghdr, length_append, length_singleton, h.msgused]
  · obtain ⟨free, hfree⟩ := hmsg
    rw [hfree, length_append, layout_length, length_append, length_singleton]
    omega

/-- What `putIovec` takes of a buffer: all of it, or what the datagram still has room for. -/
def fitting (last : List Bytes) (buf : Bytes) : ℕ :=
    min buf.length (udpMaxPayloadSize - last.flatten.length)

/-- **One iovec.**  It goes behind the last one of the last message, wherever `realloc` put the arrays. -/
theorem carries_putIovec (h : Carries c (front ++ [last])) (hbytes : c.msgbytes = last.flatten.length)
    (hle : last.flatten.length ≤ udpMaxPayloadSize) (buf : Bytes) :
    Carries (putIovec c buf).1 (front ++ [last ++ [buf.take (fitting last buf)]]) ∧
      (putIovec c buf).1.msgbytes = (last ++ [buf.take (fitting last buf)]).flatten.length ∧
      (putIovec c buf).2 = buf.drop (fitting last buf) := by
  obtain ⟨h', hroom⟩ := carries_ensureIovSpace h
  obtain ⟨freeI, hI⟩ := h'.iov
  obtain ⟨freeM, hM⟩ := h'.msglist
  have hused := h'.msgused
  have hiu := h'.iovused
  have hlen : buf.length - (if udpMaxPayloadSize < buf.length + c.msgbytes
      then buf.length + c.msgbytes - udpMaxPayloadSize else 0) = fitting last buf := by
    rw [fitting, hbytes]
    simp only [udpMaxPayloadSize] at hle ⊢
    split <;> omega
  have hput : putIovec c buf =
      ({ ensureIovSpace c with
          iov := (ensureIovSpace c).iov.set (front.flatten.length + last.length)
            (buf.take (fitting last buf))
          msgbytes := c.msgbytes + fitting last buf
          iovused := (ensureIovSpace c).iovused + 1
          msglist := (ensureIovSpace c).msglist.set front.length
            ⟨front.flatten.length, last.length + 1⟩ }, buf.drop (fitting last buf)) := by
    simp only [putIovec, ensureIovSpace_msgbytes, hlen, h'.msgused_pred, h'.lastHdr]
  have hflat : (front ++ [last]).flatten.length = front.flatten.length + last.length := by simp
  rw [hput]
  refine ⟨⟨?_, ?_, ?_, ?_, ?_, ?_⟩, ?_, rfl⟩
  · cases freeI with
    | nil =>
      rw [hI, append_nil, hiu] at hroom
      exact absurd hroom (Nat.lt_irrefl _)
    | cons x free =>
      refine ⟨free, ?_⟩
      simp only
      rw [hI, ← hflat]
      simp
  · simp only [hiu]
    simp
    omega
  · refine ⟨freeM, ?_⟩
    simp only
    rw [hM, layout_append, layout_append]
    simp [layout]
  · simp only [hused]
    simp
  · simp only [length_set]
    exact h'.iovsize
  · simp only [length_set]
    exact h'.msgsize
  · simp only [hbytes]
    simp [fitting]

theorem carries_addMsghdr (h : Carries c ms) :
    Carries (addMsghdr c) (ms ++ [[replicate udpHeaderSize 0]]) ∧ (addMsghdr c).msgbytes = udpHeaderSize := by
  have hput := carries_putIovec (carries_pushMsghdr h) rfl (by simp) (replicate udpHeaderSize 0)
  have hfit : fitting [] (replicate udpHeaderSize 0) = udpHeaderSize := by simp [fitting]
  rw [hfit] at hput
  refine ⟨?_, ?_⟩
  · simpa [addMsghdr] using hput.1
  · simpa [addMsghdr] using hput.2.1

end

/-- `add_msghdr` is the new header and a call of `add_iov`, as in the source. -/
theorem addMsghdr_eq {c : SendConn} {ms : List (List Bytes)} (h : Carries c ms) :
    addMsghdr c = addIov (pushMsghdr c) (replicate udpHeaderSize 0) := by
  have hpush := carries_pushMsghdr h
  have hbytes : (pushMsghdr c).msgbytes = 0 := rfl
  have hput := (carries_putIovec hpush rfl (by simp) (replicate udpHeaderSize 0)).2.2
  have hround : addIovRound (pushMsghdr c) (replicate udpHeaderSize 0) =
      putIovec (pushMsghdr c) (replicate udpHeaderSize 0) := by
    rw [addIovRound]
    simp only [hpush.msgused_pred, hpush.lastHdr, hbytes]
    rw [if_neg (by simp)]
  rw [addIov, addIovLoop, hround]
  simp only [hput]
  rw [if_pos (by simp [fitting])]
  rfl

/-! ### The messages of a reply -/

@[simp] abbrev udpMaxText : ℕ := udpMaxPayloadSize - udpHeaderSize

/-- The buffers of a reply in their messages, without the headers: the finished messages and the last one. -/
structure Packing where
  done : List (List Bytes)
  cur : List Bytes

namespace Packing

def msgs (s : Packing) : List (List Bytes) := s.done ++ [s.cur]

def text (s : Packing) : Bytes := s.msgs.flatten.flatten

def Fits (s : Packing) : Prop := ∀ d ∈ s.msgs, d.flatten.length ≤ udpMaxText

/-- A new message if the last one has no room for another buffer or another byte. -/
def next (s : Packing) : Packing :=
  if s.cur.length + 1 = iovMax ∨ udpMaxText ≤ s.cur.flatten.length then ⟨s.done ++ [s.cur], []⟩ else s

def put (s : Packing) (buf : Bytes) : Packing × Bytes :=
  let len := min buf.length (udpMaxText - s.next.cur.flatten.length)
  (⟨s.next.done, s.next.cur ++ [buf.take len]⟩, buf.drop len)

def addLoop : ℕ → Packing → Bytes → Packing
  | 0, s, _ => s
  | fuel + 1, s, buf => if (s.put buf).2 = [] then (s.put buf).1 else addLoop fuel (s.put buf).1 (s.put buf).2

def add (s : Packing) (buf : Bytes) : Packing := addLoop (buf.length + 1) s buf

theorem next_text (s : Packing) : s.next.text = s.text := by
  unfold next
  split
  · simp [text, msgs]
  · rfl

theorem next_room (s : Packing) : s.next.cur.flatten.length < udpMaxText := by
  unfold next
  split
  · simp
  · omega

theorem Fits.next {s : Packing} (h : s.Fits) : s.next.Fits := by
  unfold Packing.next
  split
  · intro d hd
    simp only [msgs, mem_append, mem_singleton] at hd
    rcases hd with hd | rfl
    · exact h d (by simpa [msgs] using hd)
    · simp
  · exact h

theorem put_text (s : Packing) (buf : Bytes) : (s.put buf).1.text ++ (s.put buf).2 = s.text ++ buf := by
  rw [← s.next_text]
  simp [put, text, msgs]

theorem Fits.put {s : Packing} (h : s.Fits) (buf : Bytes) : (s.put buf).1.Fits := by
  intro d hd
  simp only [msgs, Packing.put, mem_append, mem_singleton] at hd
  rcases hd with hd | rfl
  · exact h.next d (by simp [msgs, hd])
  · have := s.next_room
    simp only [flatten_append, flatten_singleton, length_append, length_take]
    omega

theorem put_left (s : Packing) (buf : Bytes) (h : (s.put buf).2 ≠ []) : (s.put buf).2.length < buf.length := by
  have hroom := s.next_room
  have hpos := length_pos_iff.mpr h
  simp only [put, length_drop] at hpos ⊢
  omega

/-- **A rule for the loop of `add_iov`.**  `P` is kept as long as something is left of the buffer, and gives `Q` when
nothing is. -/
theorem addLoop_rule (P : Packing → Bytes → Prop) (Q : Packing → Prop)
    (hmore : ∀ s buf, P s buf → (s.put buf).2 ≠ [] → P (s.put buf).1 (s.put buf).2)
    (hdone : ∀ s buf, P s buf → (s.put buf).2 = [] → Q (s.put buf).1)
    (fuel : ℕ) : ∀ (s : Packing) (buf : Bytes), buf.length < fuel → P s buf → Q (addLoop fuel s buf) := by
  induction fuel with
  | zero => intro s buf h _; omega
  | succ fuel ih =>
    intro s buf hlen hP
    rw [addLoop]
    split
    · rename_i hnil
      exact hdone s buf hP hnil
    · rename_i hleft
      have := s.put_left buf hleft
      exact ih _ _ (by omega) (hmore s buf hP hleft)

theorem add_text (s : Packing) (buf : Bytes) : (s.add buf).text = s.text ++ buf := by
  refine addLoop_rule (fun t left => t.text ++ left = s.text ++ buf) (fun t => t.text = s.text ++ buf) ?_ ?_
    (buf.length + 1) s buf (Nat.lt_succ_self _) rfl
  · intro t left h _
    exact (t.put_text left).trans h
  · intro t left h hnil
    have htext := (t.put_text left).trans h
    rwa [hnil, append_nil] at htext

theorem Fits.add {s : Packing} (h : s.Fits) (buf : Bytes) : (s.add buf).Fits :=
  addLoop_rule (fun t _ => t.Fits) Fits (fun _ left ht _ => ht.put left) (fun _ left ht _ => ht.put left)
    (buf.length + 1) s buf (Nat.lt_succ_self _) h

def empty : Packing := ⟨[], []⟩

def ofBuffers (bufs : List Bytes) : Packing := bufs.foldl add empty

theorem ofBuffers_fits (bufs : List Bytes) : (ofBuffers bufs).Fits := by
  rw [ofBuffers]
  induction bufs using reverseRecOn with
  | nil =>
    intro d hd
    rw [show d = [] from mem_singleton.mp hd]
    simp
  | append_singleton bufs buf ih =>
    rw [foldl_append]
    exact ih.add buf

theorem ofBuffers_text (bufs : List Bytes) : (ofBuffers bufs).text = bufs.flatten := by
  rw [ofBuffers]
  induction bufs using reverseRecOn with
  | nil => rfl
  | append_singleton bufs buf ih =>
    rw [foldl_append, flatten_append, flatten_singleton, ← ih]
    exact add_text _ buf

/-! Messages that are full -/

def shortCount (bufs : List Bytes) : ℕ := bufs.countP fun b => decide (b.length < 2)

theorem shortCount_append (l r : List Bytes) : shortCount (l ++ r) = shortCount l + shortCount r :=
  countP_append

theorem shortCount_singleton_le (b : Bytes) : shortCount [b] ≤ 1 :=
  countP_le_length

theorem length_le_shortCount (bufs : List Bytes) :
    2 * bufs.length ≤ 2 * shortCount bufs + bufs.flatten.length := by
  induction bufs with
  | nil => simp
  | cons b bufs ih =>
    have hcons : shortCount (b :: bufs) = shortCount bufs + if b.length < 2 then 1 else 0 := by
      simp [shortCount, countP_cons]
    rw [hcons, flatten_cons, length_append, length_cons]
    split <;> omega

/-- The finished messages are full, and the last one has at most `n` short buffers besides a piece that was left over
and a piece that filled it up. -/
structure Filled (s : Packing) (n : ℕ) : Prop where
  fits : s.Fits
  full : ∀ d ∈ s.done, d.flatten.length = udpMaxText
  short : shortCount s.cur ≤ n + 1 ∨ udpMaxText ≤ s.cur.flatten.length

/-- A message with few short buffers has room for an iovec until it is full of bytes. -/
theorem next_of_room {s : Packing} {n : ℕ} (hn : n ≤ 300) (hshort : shortCount s.cur ≤ n + 1)
    (hroom : s.cur.flatten.length < udpMaxText) : s.next = s := by
  have hlen := length_le_shortCount s.cur
  simp only [udpMaxText, udpMaxPayloadSize, udpHeaderSize] at hroom
  rw [next, if_neg]
  simp only [iovMax, udpMaxText, udpMaxPayloadSize, udpHeaderSize]
  omega

theorem next_of_full {s : Packing} (hfull : udpMaxText ≤ s.cur.flatten.length) :
    s.next = ⟨s.done ++ [s.cur], []⟩ :=
  if_pos (Or.inr hfull)

/-- What is left of a buffer is left because the message is full. -/
theorem put_full (s : Packing) (buf : Bytes) (h : (s.put buf).2 ≠ []) :
    udpMaxText ≤ (s.put buf).1.cur.flatten.length := by
  have hpos := length_pos_iff.mpr h
  simp only [put, length_drop] at hpos
  simp only [put, flatten_append, flatten_singleton, length_append, length_take]
  omega

theorem Filled.put_full {s : Packing} {n : ℕ} (h : s.Filled n) (hn : n ≤ 300) (buf : Bytes) :
    ∀ d ∈ (s.put buf).1.done, d.flatten.length = udpMaxText := by
  intro d hd
  rcases Nat.lt_or_ge s.cur.flatten.length udpMaxText with hroom | hfull
  · rw [put, next_of_room hn (h.short.resolve_right (by omega)) hroom] at hd
    exact h.full d hd
  · rw [put, next_of_full hfull] at hd
    rcases mem_append.mp hd with hd | hd
    · exact h.full d hd
    · rw [mem_singleton.mp hd]
      exact Nat.le_antisymm (h.fits s.cur (by simp [msgs])) hfull

theorem Filled.add {s : Packing} {n : ℕ} (h : s.Filled n) (buf : Bytes) (hn : n + shortCount [buf] ≤ 300) :
    (s.add buf).Filled (n + shortCount [buf]) := by
  -- behind the first round the message is full, so what is left starts another
  refine addLoop_rule (fun t left => t.Filled (n + shortCount [buf]) ∧
      (shortCount t.cur + shortCount [left] ≤ n + shortCount [buf] + 1 ∨ udpMaxText ≤ t.cur.flatten.length))
    (fun t => t.Filled (n + shortCount [buf])) ?_ ?_ (buf.length + 1) s buf (Nat.lt_succ_self _)
      ⟨⟨h.fits, h.full, ?_⟩, ?_⟩
  · intro t left ht hleft
    have hfull := t.put_full left hleft
    exact ⟨⟨ht.1.fits.put left, ht.1.put_full hn left, Or.inr hfull⟩, Or.inr hfull⟩
  · intro t left ht hnil
    refine ⟨ht.1.fits.put left, ht.1.put_full hn left, Or.inl ?_⟩
    have hlen : left.length ≤ udpMaxText - t.next.cur.flatten.length := by
      have := congrArg length hnil
      simp only [put, length_drop, length_nil] at this
      omega
    have hpiece : (t.put left).1.cur = t.next.cur ++ [left] := by
      simp only [put]
      rw [Nat.min_eq_left hlen, take_length]
    rw [hpiece, shortCount_append]
    rcases Nat.lt_or_ge t.cur.flatten.length udpMaxText with hroom | hfull
    · have hsum := ht.2.resolve_right (by omega)
      rw [next_of_room hn (by omega) hroom]
      exact hsum
    · have := shortCount_singleton_le left
      rw [next_of_full hfull, show shortCount [] = 0 from rfl]
      omega
  · rcases h.short with hs | hs
    · exact Or.inl (by omega)
    · exact Or.inr hs
  · rcases h.short with hs | hs
    · exact Or.inl (by omega)
    · exact Or.inr hs

/-- **Full messages.**  With few short buffers among them every message but the last carries as much text as a
datagram holds. -/
theorem ofBuffers_filled (bufs : List Bytes) (hn : shortCount bufs ≤ 300) :
    (ofBuffers bufs).Filled (shortCount bufs) := by
  rw [ofBuffers]
  induction bufs using reverseRecOn with
  | nil => exact ⟨ofBuffers_fits [], by simp [empty], Or.inl (by simp [empty, shortCount])⟩
  | append_singleton bufs buf ih =>
    rw [shortCount_append] at hn ⊢
    rw [foldl_append]
    exact (ih (by omega)).add buf hn

theorem add_cur_ne_nil (s : Packing) (buf : Bytes) (hbuf : buf ≠ []) : (s.add buf).cur.flatten ≠ [] := by
  have hput : ∀ (t : Packing) (left : Bytes), left ≠ [] → (t.put left).1.cur.flatten ≠ [] := by
    intro t left hleft hnil
    have hroom := t.next_room
    have hpos := length_pos_iff.mpr hleft
    have hlen := congrArg length hnil
    simp only [put, flatten_append, flatten_singleton, length_append, length_take,
      length_nil] at hlen
    omega
  exact addLoop_rule (fun _ left => left ≠ []) (fun t => t.cur.flatten ≠ []) (fun _ _ _ hleft => hleft)
    (fun t left hleft _ => hput t left hleft) (buf.length + 1) s buf (Nat.lt_succ_self _) hbuf

end Packing

/-- The arrays hold the messages of `s`, each behind the room for its header. -/
structure Represents (c : SendConn) (s : Packing) : Prop where
  carries : Carries c (s.msgs.map (replicate udpHeaderSize 0 :: ·))
  msgbytes : c.msgbytes = udpHeaderSize + s.cur.flatten.length
  fits : s.Fits

section

variable {c : SendConn} {s : Packing}

theorem Represents.carries_last (h : Represents c s) :
    Carries c (s.done.map (replicate udpHeaderSize 0 :: ·) ++ [replicate udpHeaderSize 0 :: s.cur]) := by
  simpa [Packing.msgs] using h.carries

theorem represents_next (h : Represents c s) :
    Represents (if (c.msglist.getD (c.msgused - 1) default).iovlen = iovMax ∨ udpMaxPayloadSize ≤ c.msgbytes
      then addMsghdr c else c) s.next := by
  have hiff : ((c.msglist.getD (c.msgused - 1) default).iovlen = iovMax ∨ udpMaxPayloadSize ≤ c.msgbytes) ↔
      (s.cur.length + 1 = iovMax ∨ udpMaxText ≤ s.cur.flatten.length) := by
    rw [h.carries_last.msgused_pred, h.carries_last.lastHdr, h.msgbytes]
    simp only [length_cons, udpMaxText, udpMaxPayloadSize, udpHeaderSize]
    omega
  have hfits := h.fits.next
  unfold Packing.next at hfits ⊢
  by_cases hfull : s.cur.length + 1 = iovMax ∨ udpMaxText ≤ s.cur.flatten.length
  · rw [if_pos (hiff.mpr hfull)]
    rw [if_pos hfull] at hfits ⊢
    obtain ⟨hc, hb⟩ := carries_addMsghdr h.carries
    exact ⟨by simpa [Packing.msgs] using hc, by simpa using hb, hfits⟩
  · rwa [if_neg (hiff.not.mpr hfull), if_neg hfull]

theorem represents_round (h : Represents c s) (buf : Bytes) :
    Represents (addIovRound c buf).1 (s.put buf).1 ∧ (addIovRound c buf).2 = (s.put buf).2 := by
  have hn := represents_next h
  have hroom := s.next_room
  have hslot : (replicate udpHeaderSize (0 : UInt8) :: s.next.cur).flatten.length =
      udpHeaderSize + s.next.cur.flatten.length := by
    simp
    omega
  have hfit : fitting (replicate udpHeaderSize 0 :: s.next.cur) buf =
      min buf.length (udpMaxText - s.next.cur.flatten.length) := by
    rw [fitting, hslot, Nat.sub_sub]
  obtain ⟨hc, hb, hl⟩ := carries_putIovec hn.carries_last (hn.msgbytes.trans hslot.symm)
    (by rw [hslot]; simp only [udpMaxText, udpMaxPayloadSize, udpHeaderSize] at hroom ⊢; omega) buf
  rw [hfit] at hc hb hl
  refine ⟨⟨?_, ?_, h.fits.put buf⟩, hl⟩
  · simpa [Packing.msgs, Packing.put, addIovRound] using hc
  · rw [addIovRound, hb]
    simp [Packing.put]
    omega

/-- **`add_iov` packs the buffer.** -/
theorem addIov_refines (h : Represents c s) (buf : Bytes) : Represents (addIov c buf) (s.add buf) := by
  have hgen : ∀ fuel c s buf, Represents c s → Represents (addIovLoop fuel c buf) (Packing.addLoop fuel s buf) := by
    intro fuel
    induction fuel with
    | zero => intro c s buf h; exact h
    | succ fuel ih =>
      intro c s buf h
      obtain ⟨hr, hl⟩ := represents_round h buf
      simp only [addIovLoop, Packing.addLoop, hl]
      split
      · exact hr
      · exact ih _ _ _ hr
  exact hgen (buf.length + 1) c s buf h

end

structure SendConn.Allocated (c : SendConn) : Prop where
  iovsize : 0 < c.iov.length
  msgsize : 0 < c.msglist.length

/-- **The reply holds the buffers in their messages**, whatever was in the arrays before. -/
theorem udpReply_represents {c : SendConn} (h : c.Allocated) (bufs : List Bytes) :
    Represents (udpReply c bufs) (Packing.ofBuffers bufs) := by
  have hempty : Carries { c with msgcurr := 0, msgused := 0, iovused := 0 } [] :=
    ⟨⟨c.iov, rfl⟩, rfl, ⟨c.msglist, rfl⟩, rfl, h.iovsize, h.msgsize⟩
  rw [udpReply, Packing.ofBuffers]
  induction bufs using reverseRecOn with
  | nil =>
    obtain ⟨hc, hb⟩ := carries_addMsghdr hempty
    exact ⟨hc, hb, Packing.ofBuffers_fits []⟩
  | append_singleton bufs buf ih =>
    rw [foldl_append, foldl_append]
    exact addIov_refines ih buf

end BmcCache
