import BmcCache.AddIov

/-!
# The datagrams of a UDP reply

`build_udp_headers` fills the slot in front of each message `add_iov` packed, and the `conn_mwrite` loop hands the
messages to `sendmsg` one by one.

* `buildUdpHeaders`, `transmit`, `connMwrite` — the functions of `memcached.c`;
* `Sends` — how far the loop is: a message that was sent has its pointer moved behind it;
* `connMwrite_sends` — the loop sends each message once and in order, although the headers are built again after
  the first of them was sent and its pointer has moved on to the second;
* `udp_reply_datagrams` — what arrives at the client.
-/

namespace BmcCache

open List

/-! ### Sending it -/

/-- The eight bytes `build_udp_headers` writes for message `i` of `n`. -/
def udpHeader (requestId i n : ℕ) : Bytes :=
  [UInt8.ofNat (requestId / 256), UInt8.ofNat (requestId % 256), UInt8.ofNat (i / 256), UInt8.ofNat (i % 256),
    UInt8.ofNat (n / 256), UInt8.ofNat (n % 256), 0, 0]

/-- The loop of `build_udp_headers` over the messages from the `i`-th on.  `writesBehind` says that one of its stores is
not to `c->iov`. -/
def buildHeaders (requestId n : ℕ) : ℕ → List Msghdr → List Bytes → List Bytes
  | _, [], iov => iov
  | i, m :: ms, iov => buildHeaders requestId n (i + 1) ms (iov.set m.iov (udpHeader requestId i n))

def buildUdpHeaders (c : SendConn) : SendConn :=
  { c with iov := buildHeaders c.requestId c.msgused 0 (c.msglist.take c.msgused) c.iov }

/-- The headers are built and the pointer of a message is behind `c->iov`, where its header is stored all the same. -/
def writesBehind (c : SendConn) : Bool :=
  decide (c.msgcurr = 0) && (c.msglist.take c.msgused).any fun m => decide (c.iov.length ≤ m.iov)

/-- What `sendmsg` returns: a number of bytes, `EAGAIN`, or another error. -/
inductive SendResult where
  | sent (res : ℕ)
  | again
  | failed
  deriving DecidableEq, Repr

inductive TransmitResult where
  | complete
  | incomplete
  | softError
  | hardError
  deriving DecidableEq, Repr

def SendConn.gather (c : SendConn) (m : Msghdr) : Bytes := ((c.iov.drop m.iov).take m.iovlen).flatten

/-- `Remove the completed iovec entries`: `iovlen` entries from index `p` on, `res` bytes of which were written. -/
def popIovecs (iov : List Bytes) : ℕ → ℕ → ℕ → Msghdr × ℕ
  | 0, p, res => (⟨p, 0⟩, res)
  | iovlen + 1, p, res =>
    if (iov.getD p []).length ≤ res then popIovecs iov iovlen (p + 1) (res - (iov.getD p []).length)
    else (⟨p, iovlen + 1⟩, res)

/-- `Finished writing the current msg; advance to the next.` -/
def advanceMsg (c : SendConn) : SendConn :=
  if c.msgcurr < c.msgused ∧ (c.msglist.getD c.msgcurr default).iovlen = 0 then
    { c with msgcurr := c.msgcurr + 1 }
  else c

/-- What `transmit` does with the current message after `res` bytes of it were written. -/
def popMsg (c : SendConn) (res : ℕ) : SendConn :=
  let m := c.msglist.getD c.msgcurr default
  let (m', left) := popIovecs c.iov m.iovlen m.iov res
  { c with
    iov := if 0 < left then c.iov.set m'.iov ((c.iov.getD m'.iov []).drop left) else c.iov
    msglist := c.msglist.set c.msgcurr m' }

/-- `transmit`, with what `sendmsg` does with the message it is given; the bytes it took are returned too. -/
def transmit (c : SendConn) (sendmsg : Bytes → SendResult) : SendConn × List Bytes × TransmitResult :=
  let c := advanceMsg c
  if c.msgcurr < c.msgused then
    let d := c.gather (c.msglist.getD c.msgcurr default)
    match sendmsg d with
    | .sent res => (popMsg c res, [d.take res], .incomplete)
    | .again => (c, [], .softError)
    | .failed => (c, [], .hardError)
  else (c, [], .complete)

/-- The case `conn_mwrite` of `drive_machine` for UDP: the headers are built as long as the first message is the
current one. -/
def mwriteStep (c : SendConn) (sendmsg : Bytes → SendResult) :
    SendConn × List Bytes × TransmitResult :=
  transmit (if c.msgcurr = 0 then buildUdpHeaders c else c) sendmsg

inductive UdpSend where
  | whole
  | again
  deriving DecidableEq, Repr

def UdpSend.result : UdpSend → Bytes → SendResult
  | .whole, d => .sent d.length
  | .again, _ => .again

/-- `drive_machine` in state `conn_mwrite`, for the outcomes of the `sendmsg` calls it gets to make: the datagrams
sent, whether the reply is complete, and whether a header has been stored behind `c->iov`.  After `EAGAIN` it comes back
to the same state. -/
def connMwrite : List UdpSend → SendConn → List Bytes × Bool × Bool
  | [], c => ([], decide ((mwriteStep c UdpSend.again.result).2.2 = .complete), writesBehind c)
  | r :: rs, c =>
    match mwriteStep c r.result with
    | (_, _, .complete) => ([], true, writesBehind c)
    | (c', sent, _) => (sent ++ (connMwrite rs c').1, (connMwrite rs c').2.1, writesBehind c || (connMwrite rs c').2.2)

/-! ### Headers -/

/-- Messages behind their headers, from the `i`-th of `n` on. -/
def label (requestId n : ℕ) : ℕ → List (List Bytes) → List (List Bytes)
  | _, [] => []
  | i, d :: ds => (udpHeader requestId i n :: d) :: label requestId n (i + 1) ds

section

variable (requestId n : ℕ)

@[simp] theorem label_length (i : ℕ) (ds : List (List Bytes)) :
    (label requestId n i ds).length = ds.length := by
  induction ds generalizing i with
  | nil => rfl
  | cons d ds ih => simp [label, ih]

theorem label_ne_nil (i : ℕ) (ds : List (List Bytes)) : ∀ m ∈ label requestId n i ds, m ≠ [] := by
  induction ds generalizing i with
  | nil => simp [label]
  | cons d ds ih => simpa [label] using ih (i + 1)

@[simp] theorem label_tail (i : ℕ) (ds : List (List Bytes)) :
    (label requestId n i ds).map tail = ds := by
  induction ds generalizing i with
  | nil => rfl
  | cons d ds ih => simp [label, ih]

theorem label_getElem? (i j : ℕ) (ds : List (List Bytes)) :
    (label requestId n i ds)[j]? = ds[j]?.map (udpHeader requestId (i + j) n :: ·) := by
  induction ds generalizing i j with
  | nil => rfl
  | cons d ds ih =>
    cases j with
    | zero => simp [label]
    | succ j => simp only [label, getElem?_cons_succ, ih, show i + 1 + j = i + (j + 1) from by omega]

theorem layout_label (i p : ℕ) (ms : List (List Bytes)) (hne : ∀ m ∈ ms, m ≠ []) :
    layout p (label requestId n i (ms.map tail)) = layout p ms := by
  induction ms generalizing i p with
  | nil => rfl
  | cons m ms ih =>
    obtain ⟨slot, d, rfl⟩ := exists_cons_of_ne_nil (hne m (by simp))
    simp [label, layout, ih _ _ (fun m hm => hne m (by simp [hm]))]

/-- The loop over messages that lie in order gives each its own header, whatever stood in the slots. -/
theorem buildHeaders_layout (i : ℕ) (p : List Bytes) (ms : List (List Bytes))
    (free : List Bytes) (hne : ∀ m ∈ ms, m ≠ []) :
    buildHeaders requestId n i (layout p.length ms) (p ++ ms.flatten ++ free) =
      p ++ (label requestId n i (ms.map tail)).flatten ++ free := by
  induction ms generalizing i p with
  | nil => rfl
  | cons m ms ih =>
    obtain ⟨slot, d, rfl⟩ := exists_cons_of_ne_nil (hne m (by simp))
    have hset : (p ++ ((slot :: d) :: ms).flatten ++ free).set p.length (udpHeader requestId i n) =
        (p ++ udpHeader requestId i n :: d) ++ ms.flatten ++ free := by simp
    have hlen : p.length + (slot :: d).length = (p ++ udpHeader requestId i n :: d).length := by simp
    rw [layout, buildHeaders, hset, hlen, ih _ _ (fun m hm => hne m (by simp [hm]))]
    simp [label]

end

theorem be16At_udpHeader (requestId i n : ℕ) (hid : requestId < 65536) (hi : i < 65536) (hn : n < 65536)
    (rest : Bytes) :
    be16At (udpHeader requestId i n ++ rest) 0 = requestId ∧ be16At (udpHeader requestId i n ++ rest) 2 = i ∧
      be16At (udpHeader requestId i n ++ rest) 4 = n ∧ be16At (udpHeader requestId i n ++ rest) 6 = 0 := by
  have hbyte : ∀ v, v < 65536 → (UInt8.ofNat (v / 256)).toNat * 256 + (UInt8.ofNat (v % 256)).toNat = v := by
    intro v hv
    rw [UInt8.toNat_ofNat_of_lt' (show v / 256 < 256 by omega), UInt8.toNat_ofNat_of_lt' (show v % 256 < 256 by omega)]
    omega
  refine ⟨?_, ?_, ?_, ?_⟩
  · simpa [be16At, udpHeader] using hbyte requestId hid
  · simpa [be16At, udpHeader] using hbyte i hi
  · simpa [be16At, udpHeader] using hbyte n hn
  · simp [be16At, udpHeader]

/-! ### The loop over the messages -/

theorem popIovecs_all (p l free : List Bytes) :
    popIovecs (p ++ l ++ free) l.length p.length l.flatten.length = (⟨p.length + l.length, 0⟩, 0) := by
  induction l generalizing p with
  | nil => simp [popIovecs]
  | cons b l ih =>
    have hget : (p ++ (b :: l) ++ free).getD p.length [] = b := by simp
    rw [length_cons, popIovecs, hget, if_pos (by simp), flatten_cons, length_append,
      Nat.add_sub_cancel_left]
    have hrest := ih (p ++ [b])
    rw [show p ++ [b] ++ l ++ free = p ++ (b :: l) ++ free from by simp, length_append,
      length_singleton] at hrest
    rw [hrest, Nat.add_right_comm, Nat.add_assoc]

/-- `k` messages are sent and those in `ds` are to come.  The pointer of a message that was sent has moved behind it;
the headers are in their slots unless they are still to be built. -/
structure Sends (c : SendConn) (n k : ℕ) (ds : List (List Bytes)) : Prop where
  arrays : ∃ p ms freeI dead freeM, c.iov = p ++ ms.flatten ++ freeI ∧
    c.msglist = dead ++ layout p.length ms ++ freeM ∧ dead.length = k ∧ (∀ m ∈ ms, m ≠ []) ∧
    ms.map tail = ds ∧ (c.msgcurr ≠ 0 → ms = label c.requestId n k ds) ∧
    (c.msgcurr = k ∨ c.msgcurr + 1 = k ∧ dead.getLast? = some ⟨p.length, 0⟩)
  msgused : c.msgused = n
  count : k + ds.length = n

/-- The same with the headers built and the current message the first that is to come. -/
structure Ready (c : SendConn) (n k : ℕ) (ds : List (List Bytes)) : Prop where
  arrays : ∃ p freeI dead freeM, c.iov = p ++ (label c.requestId n k ds).flatten ++ freeI ∧
    c.msglist = dead ++ layout p.length (label c.requestId n k ds) ++ freeM ∧ dead.length = k
  msgcurr : c.msgcurr = k
  msgused : c.msgused = n
  count : k + ds.length = n

section

variable {c : SendConn} {n k : ℕ} {ds : List (List Bytes)} {d : List Bytes}

theorem Ready.sends (h : Ready c n k ds) : Sends c n k ds := by
  obtain ⟨p, freeI, dead, freeM, hI, hM, hk⟩ := h.arrays
  exact ⟨⟨p, _, freeI, dead, freeM, hI, hM, hk, label_ne_nil _ _ _ _, label_tail _ _ _ _, fun _ => rfl,
    Or.inl h.msgcurr⟩, h.msgused, h.count⟩

/-- **The headers, built again.**  After the first message was sent its header goes into the slot of the second
message, which gets its own right after. -/
theorem Sends.build (h : Sends c n k ds) (h0 : c.msgcurr = 0) :
    ∃ p freeI dead freeM, (buildUdpHeaders c).iov = p ++ (label c.requestId n k ds).flatten ++ freeI ∧
      c.msglist = dead ++ layout p.length (label c.requestId n k ds) ++ freeM ∧ dead.length = k ∧
      (c.msgcurr = k ∨ c.msgcurr + 1 = k ∧ dead.getLast? = some ⟨p.length, 0⟩) := by
  obtain ⟨p, ms, freeI, dead, freeM, hI, hM, hk, hne, htail, -, hcurr⟩ := h.arrays
  have hlen : ms.length = ds.length := by rw [← htail, length_map]
  have htake : c.msglist.take c.msgused = dead ++ layout p.length ms := by
    rw [hM, take_left' (by rw [length_append, layout_length, hk, h.msgused, hlen, h.count])]
  have hbuild : (buildUdpHeaders c).iov =
      buildHeaders c.requestId n 0 (dead ++ layout p.length ms) (p ++ ms.flatten ++ freeI) := by
    rw [buildUdpHeaders, htake, hI, h.msgused]
  have hM' : c.msglist = dead ++ layout p.length (label c.requestId n k ds) ++ freeM := by
    rw [hM, ← htail, layout_label _ _ _ _ _ hne]
  rcases hcurr with hck | ⟨hck, hlast⟩
  · have hdead : dead = [] := length_eq_zero_iff.mp (by omega)
    refine ⟨p, freeI, dead, freeM, ?_, hM', hk, Or.inl hck⟩
    rw [hbuild, hdead, nil_append, buildHeaders_layout _ _ _ _ _ _ hne, htail, ← hck, h0]
  · have hk1 : k = 1 := by omega
    have hdead : dead = [⟨p.length, 0⟩] := by
      obtain ⟨m, rfl⟩ := length_eq_one_iff.mp (hk.trans hk1)
      simpa using hlast
    rw [hdead, singleton_append, buildHeaders] at hbuild
    cases ms with
    | nil =>
      refine ⟨p, freeI.set 0 (udpHeader c.requestId 0 n), dead, freeM, ?_, hM', hk, Or.inr ⟨hck, hlast⟩⟩
      rw [hbuild, ← htail]
      simp [layout, buildHeaders, label]
    | cons m ms =>
      obtain ⟨slot, d, rfl⟩ := exists_cons_of_ne_nil (hne m (by simp))
      have hset : (p ++ ((slot :: d) :: ms).flatten ++ freeI).set p.length (udpHeader c.requestId 0 n) =
          p ++ ((udpHeader c.requestId 0 n :: d) :: ms).flatten ++ freeI := by simp
      have hne' : ∀ m ∈ (udpHeader c.requestId 0 n :: d) :: ms, m ≠ [] := by
        intro m hm
        rcases mem_cons.mp hm with rfl | hm
        · simp
        · exact hne m (mem_cons_of_mem _ hm)
      refine ⟨p, freeI, dead, freeM, ?_, hM', hk, Or.inr ⟨hck, hlast⟩⟩
      have hb := buildHeaders_layout c.requestId n 1 p _ freeI hne'
      rw [hbuild, hset, ← htail, hk1]
      exact hb

theorem Sends.ready (h : Sends c n k ds) :
    Ready (advanceMsg (if c.msgcurr = 0 then buildUdpHeaders c else c)) n k ds ∧
      (advanceMsg (if c.msgcurr = 0 then buildUdpHeaders c else c)).requestId = c.requestId := by
  set c₁ := if c.msgcurr = 0 then buildUdpHeaders c else c with hc₁
  have hid : c₁.requestId = c.requestId := by rw [hc₁]; split <;> rfl
  have hused : c₁.msgused = n := by rw [hc₁]; split <;> exact h.msgused
  have harr : ∃ p freeI dead freeM, c₁.iov = p ++ (label c.requestId n k ds).flatten ++ freeI ∧
      c₁.msglist = dead ++ layout p.length (label c.requestId n k ds) ++ freeM ∧ dead.length = k ∧
      (c₁.msgcurr = k ∨ c₁.msgcurr + 1 = k ∧ dead.getLast? = some ⟨p.length, 0⟩) := by
    by_cases h0 : c.msgcurr = 0
    · rw [hc₁, if_pos h0]
      exact h.build h0
    · rw [hc₁, if_neg h0]
      obtain ⟨p, ms, freeI, dead, freeM, hI, hM, hk, -, -, hlabel, hcurr⟩ := h.arrays
      rw [hlabel h0] at hI hM
      exact ⟨p, freeI, dead, freeM, hI, hM, hk, hcurr⟩
  obtain ⟨p, freeI, dead, freeM, hI, hM, hk, hcurr⟩ := harr
  have hcount := h.count
  rcases hcurr with hck | ⟨hck, hlast⟩
  · have hstay : advanceMsg c₁ = c₁ := by
      rw [advanceMsg, if_neg]
      intro hadv
      cases ds with
      | nil =>
        rw [length_nil] at hcount
        omega
      | cons d ds =>
        have hzero := hadv.2
        rw [hM, hck, ← hk, label, layout_getD] at hzero
        simp at hzero
    rw [hstay]
    exact ⟨⟨⟨p, freeI, dead, freeM, by rw [hid]; exact hI, by rw [hid]; exact hM, hk⟩, hck, hused,
      hcount⟩, hid⟩
  · obtain ⟨init, rfl⟩ : ∃ init, dead = init ++ [⟨p.length, 0⟩] := by
      exact ⟨dead.dropLast, (dropLast_append_getLast? _ (by simpa using hlast)).symm⟩
    have hinit : init.length = c₁.msgcurr := by
      rw [length_append, length_singleton] at hk
      omega
    have hmove : advanceMsg c₁ = { c₁ with msgcurr := c₁.msgcurr + 1 } := by
      rw [advanceMsg, if_pos]
      refine ⟨by omega, ?_⟩
      rw [hM, ← hinit, append_assoc, append_assoc, getD_append_right _ _ _ _ le_rfl]
      simp
    rw [hmove]
    exact ⟨⟨⟨p, freeI, _, freeM, by simp only [hid]; exact hI, by simp only [hid]; exact hM, hk⟩,
      hck, hused, hcount⟩,
      hid⟩

theorem Ready.gather (h : Ready c n k (d :: ds)) :
    c.gather (c.msglist.getD c.msgcurr default) = udpHeader c.requestId k n ++ d.flatten := by
  obtain ⟨p, freeI, dead, freeM, hI, hM, hk⟩ := h.arrays
  have hhdr : c.msglist.getD c.msgcurr default = ⟨p.length, d.length + 1⟩ := by
    rw [hM, h.msgcurr, ← hk, label, layout_getD, length_cons]
  rw [SendConn.gather, hhdr, hI]
  simp [label]

theorem Ready.sent (h : Ready c n k (d :: ds)) :
    Sends (popMsg c (udpHeader c.requestId k n ++ d.flatten).length) n (k + 1) ds := by
  obtain ⟨p, freeI, dead, freeM, hI, hM, hk⟩ := h.arrays
  have hhdr : c.msglist.getD c.msgcurr default = ⟨p.length, d.length + 1⟩ := by
    rw [hM, h.msgcurr, ← hk, label, layout_getD, length_cons]
  have hI' : c.iov = p ++ udpHeader c.requestId k n :: d ++ ((label c.requestId n (k + 1) ds).flatten ++ freeI) := by
    rw [hI]
    simp [label]
  have hpop := popIovecs_all p (udpHeader c.requestId k n :: d)
    ((label c.requestId n (k + 1) ds).flatten ++ freeI)
  rw [← hI', flatten_cons, length_cons] at hpop
  have hmsg : popMsg c (udpHeader c.requestId k n ++ d.flatten).length =
      { c with msglist := c.msglist.set c.msgcurr ⟨p.length + (d.length + 1), 0⟩ } := by
    rw [popMsg, hhdr]
    simp only [hpop, Nat.lt_irrefl, if_false]
  rw [hmsg]
  have hcount := h.count
  rw [length_cons] at hcount
  refine ⟨⟨p ++ udpHeader c.requestId k n :: d, label c.requestId n (k + 1) ds, freeI,
    dead ++ [⟨p.length + (d.length + 1), 0⟩], freeM, ?_, ?_, ?_, label_ne_nil _ _ _ _, label_tail _ _ _ _,
    fun _ => rfl, Or.inr ⟨by simp only [h.msgcurr], ?_⟩⟩, h.msgused, by omega⟩
  · rw [hI']
    simp
  · rw [hM, h.msgcurr, ← hk]
    simp [label, layout]
  · simp [hk]
  · simp

/-- **One round of the loop**: the reply is complete, or the next message is offered to `sendmsg`. -/
theorem mwriteStep_nil (h : Sends c n k []) (r : UdpSend) : (mwriteStep c r.result).2 = ([], .complete) := by
  have hr := h.ready.1
  have hcount := hr.count
  rw [length_nil] at hcount
  rw [mwriteStep, transmit]
  simp only
  rw [if_neg (by rw [hr.msgcurr, hr.msgused]; omega)]

theorem mwriteStep_again (h : Sends c n k (d :: ds)) :
    ∃ c', mwriteStep c UdpSend.again.result = (c', [], .softError) ∧ Sends c' n k (d :: ds) ∧
      c'.requestId = c.requestId := by
  obtain ⟨hr, hid⟩ := h.ready
  have hcount := hr.count
  rw [length_cons] at hcount
  refine ⟨_, ?_, hr.sends, hid⟩
  rw [mwriteStep, transmit]
  simp only
  rw [if_pos (by rw [hr.msgcurr, hr.msgused]; omega)]
  rfl

theorem mwriteStep_whole (h : Sends c n k (d :: ds)) :
    ∃ c', mwriteStep c UdpSend.whole.result = (c', [udpHeader c.requestId k n ++ d.flatten], .incomplete) ∧
      Sends c' n (k + 1) ds ∧ c'.requestId = c.requestId := by
  obtain ⟨hr, hid⟩ := h.ready
  have hcount := hr.count
  rw [length_cons] at hcount
  have hg := hr.gather
  refine ⟨_, ?_, hr.sent, hid⟩
  rw [mwriteStep, transmit]
  simp only
  rw [if_pos (by rw [hr.msgcurr, hr.msgused]; omega), hg, hid]
  simp only [UdpSend.result, take_length]

end

/-- **A header is only stored behind `c->iov` when the one message has been sent**: its pointer has moved to the end
of the array, and the headers are built again. -/
theorem Sends.last_of_writesBehind {c : SendConn} {n k : ℕ} {ds : List (List Bytes)} (h : Sends c n k ds)
    (hbehind : writesBehind c = true) : n = 1 ∧ ds = [] := by
  obtain ⟨p, ms, freeI, dead, freeM, hI, hM, hk, hne, htail, -, hcurr⟩ := h.arrays
  have hlen : ms.length = ds.length := by rw [← htail, length_map]
  have hcount := h.count
  rw [writesBehind, Bool.and_eq_true, decide_eq_true_eq, any_eq_true] at hbehind
  obtain ⟨h0, m, hm, hout⟩ := hbehind
  rw [decide_eq_true_eq, hI, length_append, length_append] at hout
  rw [hM, take_left' (by rw [length_append, layout_length, hk, h.msgused, hlen, hcount])] at hm
  rcases mem_append.mp hm with hm | hm
  · obtain ⟨hck, hlast⟩ : c.msgcurr + 1 = k ∧ dead.getLast? = some ⟨p.length, 0⟩ := by
      refine hcurr.resolve_left fun hck => ?_
      rw [length_eq_zero_iff.mp (hk.trans (hck.symm.trans h0))] at hm
      cases hm
    obtain ⟨x, rfl⟩ := length_eq_one_iff.mp (hk.trans (show k = 1 by omega))
    obtain rfl : x = ⟨p.length, 0⟩ := by simpa using hlast
    obtain rfl := mem_singleton.mp hm
    have hnil : ms.flatten = [] := length_eq_zero_iff.mp (by dsimp only at hout; omega)
    have hms : ms = [] := eq_nil_iff_forall_not_mem.mpr fun m hm => hne m hm (flatten_eq_nil_iff.mp hnil m hm)
    rw [hms] at hlen
    exact ⟨by rw [length_nil] at hlen; omega, length_eq_zero_iff.mp hlen.symm⟩
  · exact absurd (layout_iov_lt hne hm) (by omega)

/-- **The loop sends every message once and in order**, whenever `sendmsg` blocks. -/
theorem connMwrite_sends (rs : List UdpSend) : ∀ (c : SendConn) (n k : ℕ) (ds : List (List Bytes)),
    Sends c n k ds → ∃ behind, connMwrite rs c = (((label c.requestId n k ds).map flatten).take (rs.count .whole),
      decide (ds.length ≤ rs.count .whole), behind) ∧
        (behind = true → n = 1 ∧ ds.length ≤ rs.count .whole) := by
  induction rs with
  | nil =>
    intro c n k ds h
    cases ds with
    | nil => exact ⟨_, by simp [connMwrite, mwriteStep_nil h, label], fun hb =>
        ⟨(h.last_of_writesBehind hb).1, by simp⟩⟩
    | cons d ds =>
      obtain ⟨c', hstep, -, -⟩ := mwriteStep_again h
      exact ⟨_, by simp [connMwrite, hstep], fun hb => nomatch (h.last_of_writesBehind hb).2⟩
  | cons r rs ih =>
    intro c n k ds h
    cases ds with
    | nil =>
      have hstep := mwriteStep_nil h r
      refine ⟨writesBehind c, ?_, fun hb => ⟨(h.last_of_writesBehind hb).1, by simp⟩⟩
      rw [connMwrite]
      rw [show mwriteStep c r.result = ((mwriteStep c r.result).1, [], .complete) from by rw [← hstep]]
      simp [label]
    | cons d ds =>
      have hinside : writesBehind c = false :=
        Bool.eq_false_iff.mpr fun hb => nomatch (h.last_of_writesBehind hb).2
      cases r with
      | again =>
        obtain ⟨c', hstep, hsends, hid⟩ := mwriteStep_again h
        obtain ⟨behind, hrest, hb⟩ := ih _ _ _ _ hsends
        exact ⟨behind, by simp [connMwrite, hstep, hrest, hid, hinside], by simpa using hb⟩
      | whole =>
        obtain ⟨c', hstep, hsends, hid⟩ := mwriteStep_whole h
        obtain ⟨behind, hrest, hb⟩ := ih _ _ _ _ hsends
        exact ⟨behind, by simp [connMwrite, hstep, hrest, hid, hinside, label], by simpa using hb⟩

theorem Represents.sends {c : SendConn} {s : Packing} (h : Represents c s) (h0 : c.msgcurr = 0) :
    Sends c s.msgs.length 0 s.msgs := by
  obtain ⟨freeI, hI⟩ := h.carries.iov
  obtain ⟨freeM, hM⟩ := h.carries.msglist
  refine ⟨⟨[], _, freeI, [], freeM, by simpa using hI, by simpa using hM, rfl, ?_, ?_, fun hne => absurd h0 hne,
    Or.inl h0⟩, ?_, Nat.zero_add _⟩
  · intro m hm
    obtain ⟨d, -, rfl⟩ := mem_map.mp hm
    simp
  · simp [Function.comp_def]
  · rw [h.carries.msgused, length_map]

/-! ### The whole reply -/

section

variable (c : SendConn) (buf : Bytes)

/-- Packing buffers touches neither the request id nor the message that is sent. -/
theorem putIovec_frame : (putIovec c buf).1.requestId = c.requestId ∧ (putIovec c buf).1.msgcurr = c.msgcurr := by
  unfold putIovec ensureIovSpace
  split <;> exact ⟨rfl, rfl⟩

theorem addMsghdr_frame : (addMsghdr c).requestId = c.requestId ∧ (addMsghdr c).msgcurr = c.msgcurr :=
  putIovec_frame (pushMsghdr c) _

theorem addIovRound_frame :
    (addIovRound c buf).1.requestId = c.requestId ∧ (addIovRound c buf).1.msgcurr = c.msgcurr := by
  unfold addIovRound
  simp only
  split
  · obtain ⟨h1, h2⟩ := putIovec_frame (addMsghdr c) buf
    obtain ⟨h3, h4⟩ := addMsghdr_frame c
    exact ⟨h1.trans h3, h2.trans h4⟩
  · exact putIovec_frame c buf

theorem addIov_frame : (addIov c buf).requestId = c.requestId ∧ (addIov c buf).msgcurr = c.msgcurr := by
  have hgen : ∀ fuel c buf, (addIovLoop fuel c buf).requestId = c.requestId ∧
      (addIovLoop fuel c buf).msgcurr = c.msgcurr := by
    intro fuel
    induction fuel with
    | zero => intro c buf; exact ⟨rfl, rfl⟩
    | succ fuel ih =>
      intro c buf
      obtain ⟨h1, h2⟩ := addIovRound_frame c buf
      simp only [addIovLoop]
      split
      · exact ⟨h1, h2⟩
      · obtain ⟨h3, h4⟩ := ih (addIovRound c buf).1 (addIovRound c buf).2
        exact ⟨h3.trans h1, h4.trans h2⟩
  exact hgen (buf.length + 1) c buf

theorem udpReply_frame (bufs : List Bytes) :
    (udpReply c bufs).requestId = c.requestId ∧ (udpReply c bufs).msgcurr = 0 := by
  rw [udpReply]
  induction bufs using reverseRecOn with
  | nil => exact addMsghdr_frame _
  | append_singleton bufs buf ih =>
    rw [foldl_append]
    obtain ⟨h1, h2⟩ := addIov_frame (bufs.foldl addIov (startReply c)) buf
    exact ⟨h1.trans ih.1, h2.trans ih.2⟩

end

def replyDatagrams (requestId : ℕ) (bufs : List Bytes) : List Bytes :=
  (label requestId (Packing.ofBuffers bufs).msgs.length 0 (Packing.ofBuffers bufs).msgs).map flatten

theorem replyDatagrams_length (requestId : ℕ) (bufs : List Bytes) :
    (replyDatagrams requestId bufs).length = (Packing.ofBuffers bufs).msgs.length := by
  rw [replyDatagrams, length_map, label_length]

theorem replyDatagrams_getElem? (requestId : ℕ) (bufs : List Bytes) (i : ℕ) :
    (replyDatagrams requestId bufs)[i]? = (Packing.ofBuffers bufs).msgs[i]?.map fun d =>
      udpHeader requestId i (Packing.ofBuffers bufs).msgs.length ++ d.flatten := by
  rw [replyDatagrams, getElem?_map, label_getElem?, Option.map_map, Nat.zero_add]
  rfl

theorem label_drop (requestId n i : ℕ) (ds : List (List Bytes)) :
    ((label requestId n i ds).map fun m => m.flatten.drop udpHeaderSize) = ds.map flatten := by
  induction ds generalizing i with
  | nil => rfl
  | cons d ds ih => simp [label, udpHeader, ih]

/-- What a client that puts the datagrams of a reply together can rely on. -/
structure IsSegmentation (requestId : ℕ) (text : Bytes) (datagrams : List Bytes) : Prop where
  size : ∀ d ∈ datagrams, d.length ≤ udpMaxPayloadSize
  header : ∀ i d, datagrams[i]? = some d → udpHeaderSize ≤ d.length ∧ be16At d 0 = requestId ∧
    be16At d 2 = i ∧
    be16At d 4 = datagrams.length ∧ be16At d 6 = 0
  text_eq : (datagrams.map (drop udpHeaderSize)).flatten = text

theorem replyDatagrams_segmentation (requestId : ℕ) (bufs : List Bytes) (hid : requestId < 65536)
    (hn : (replyDatagrams requestId bufs).length < 65536) :
    IsSegmentation requestId bufs.flatten (replyDatagrams requestId bufs) where
  size := by
    intro d hd
    obtain ⟨i, hi⟩ := mem_iff_getElem?.mp hd
    rw [replyDatagrams_getElem?] at hi
    obtain ⟨m, hm, rfl⟩ := Option.map_eq_some_iff.mp hi
    have hfit := Packing.ofBuffers_fits bufs m (mem_of_getElem? hm)
    simp only [length_append, udpHeader, length_cons, length_nil]
    simp only [udpMaxText, udpMaxPayloadSize, udpHeaderSize] at hfit ⊢
    omega
  header := by
    intro i d hi
    have hlt : i < (replyDatagrams requestId bufs).length := (List.getElem?_eq_some_iff.mp hi).1
    rw [replyDatagrams_getElem?] at hi
    obtain ⟨m, -, rfl⟩ := Option.map_eq_some_iff.mp hi
    rw [replyDatagrams_length] at hn hlt ⊢
    exact ⟨by simp [udpHeader], be16At_udpHeader requestId i _ hid (by omega) hn m.flatten⟩
  text_eq := by
    have hdrop := label_drop requestId (Packing.ofBuffers bufs).msgs.length 0 (Packing.ofBuffers bufs).msgs
    rw [replyDatagrams, map_map, show drop udpHeaderSize ∘ flatten =
      fun m : List Bytes => m.flatten.drop udpHeaderSize from rfl, hdrop, ← Packing.ofBuffers_text bufs]
    exact flatten_flatten.symm

theorem connMwrite_udpReply {c : SendConn} (h : c.Allocated) (bufs : List Bytes) (rs : List UdpSend) :
    ∃ behind, connMwrite rs (udpReply c bufs) = ((replyDatagrams c.requestId bufs).take (rs.count .whole),
        decide ((replyDatagrams c.requestId bufs).length ≤ rs.count .whole), behind) ∧
      (behind = true → (replyDatagrams c.requestId bufs).length = 1 ∧
        (replyDatagrams c.requestId bufs).length ≤ rs.count .whole) := by
  obtain ⟨hid, hcurr⟩ := udpReply_frame c bufs
  have hsends := connMwrite_sends rs _ _ _ _ ((udpReply_represents h bufs).sends hcurr)
  rw [hid] at hsends
  rw [replyDatagrams_length]
  exact hsends

/-- **UDP replies.**  The datagrams of a reply are of the size a datagram may have, carry the request id, their number
and their count, and together the text of all buffers; the loop sends each once and in order, however often `sendmsg`
blocks, and the reply is complete as soon as the last is sent.  No header is stored outside of `c->iov` before that. -/
theorem udp_reply_datagrams (c : SendConn) (halloc : c.Allocated) (hid : c.requestId < 65536)
    (bufs : List Bytes) (hn : (udpReply c bufs).msgused ≤ 65535) :
    ∃ datagrams, datagrams.length = (udpReply c bufs).msgused ∧
      IsSegmentation c.requestId bufs.flatten datagrams ∧
      ∀ rs, ∃ behind, connMwrite rs (udpReply c bufs) =
          (datagrams.take (rs.count .whole), decide (datagrams.length ≤ rs.count .whole), behind) ∧
        (behind = true → datagrams.length = 1 ∧ datagrams.length ≤ rs.count .whole) := by
  have hlen : (replyDatagrams c.requestId bufs).length = (udpReply c bufs).msgused := by
    rw [replyDatagrams_length, (udpReply_represents halloc bufs).carries.msgused, length_map]
  exact ⟨replyDatagrams c.requestId bufs, hlen,
    replyDatagrams_segmentation c.requestId bufs hid (by omega), connMwrite_udpReply halloc bufs⟩

/-- A reply of a long buffer, an empty one and a short one, on a connection with room for one iovec and one message. -/
theorem udp_reply_datagrams_long : ∃ datagrams : List Bytes,
    datagrams.length = (udpReply ⟨7, [[]], 0, [default], 0, 0, 0⟩ [replicate 1500 65, [], [66]]).msgused ∧
      IsSegmentation 7 [replicate 1500 65, [], [66]].flatten datagrams ∧
      ∀ rs, ∃ behind, connMwrite rs (udpReply ⟨7, [[]], 0, [default], 0, 0, 0⟩ [replicate 1500 65, [], [66]]) =
          (datagrams.take (rs.count .whole), decide (datagrams.length ≤ rs.count .whole), behind) ∧
        (behind = true → datagrams.length = 1 ∧ datagrams.length ≤ rs.count .whole) :=
  udp_reply_datagrams ⟨7, [[]], 0, [default], 0, 0, 0⟩ ⟨by decide, by decide⟩ (by decide) _ (by decide +kernel)

end BmcCache
