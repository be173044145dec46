import BmcCache.DriveMachine
import BmcCache.StepUntil
import Mathlib.Algebra.BigOperators.Group.List.Basic

/-!
# What the states of a connection take of its input

* `Drops` — so many bytes of the input are gone;
* `nread_end` — `conn_nread` takes the bytes it waits for, runs out of chunks before, or the stream ends;
* `swallow_end` — `conn_swallow` throws away the bytes it has to, or the stream ends;
* `Answers` — a reply is to be sent, and the state behind it: the next command, a swallowed rest, the end.

`GivesUp` and `ResumesAt` say how a command ends; they are what the commands are proved to do.
-/

namespace BmcCache

open StepUntil List

namespace Conn

/-- `n` bytes of the input are gone, and no datagram. -/
structure Drops (c : Conn) (n : ℕ) (rbuf : Bytes) (sock : List Bytes) : Prop where
  unread_eq : (c.withInput rbuf sock).unread = c.unread.drop n
  sock_eq : c.transport = .udp → sock = c.sock

section reading

variable {w : World} {c : Conn}

theorem not_settled (h : c.state = .nread ∨ c.state = .swallow ∨ c.state = .write ∨ c.state = .mwrite ∨
    c.state = .parseCmd ∨ c.state = .waiting) : ¬ c.Settled := by
  rcases h with h | h | h | h | h | h <;> simp [Settled, h]

theorem Drops.refl (c : Conn) : c.Drops 0 c.rbuf c.sock := ⟨rfl, fun _ => rfl⟩

variable {m k : ℕ} {r bytes : Bytes} {s : List Bytes} {d : Conn} {rooms : List ℕ} {go : ConnState}

theorem Drops.trans {n : ℕ} {r' : Bytes} {s' : List Bytes} (h : c.Drops m r s)
    (hd : d.rbuf = r) (hs : d.sock = s) (ht : d.transport = c.transport) (h' : d.Drops n r' s') :
    c.Drops (m + n) r' s' := by
  obtain ⟨hu, hk⟩ := h
  obtain ⟨hu', hk'⟩ := h'
  refine ⟨?_, fun hudp => ?_⟩
  · have h1 : (c.withInput r' s').unread = (d.withInput r' s').unread := by simp [unread, withInput, ht]
    have h2 : d.unread = (c.withInput r s).unread := by simp [unread, withInput, ht, hd, hs]
    rw [h1, hu', h2, hu, drop_drop]
  · rw [hk' (ht.trans hudp), hs, hk hudp]

theorem drops_rbuf (n : ℕ) (h : n ≤ c.rbuf.length) : c.Drops n (c.rbuf.drop n) c.sock := by
  refine ⟨?_, fun _ => rfl⟩
  cases ht : c.transport with
  | tcp => simp [unread, withInput, ht, drop_append_of_le_length h]
  | udp => simp [unread, withInput, ht]

theorem take_unread (n : ℕ) (h : n ≤ c.rbuf.length) : c.unread.take n = c.rbuf.take n := by
  cases ht : c.transport with
  | tcp => simp [unread, ht, take_append_of_le_length h]
  | udp => simp [unread, ht]

theorem rbuf_length_le (c : Conn) : c.rbuf.length ≤ c.unread.length := by
  cases ht : c.transport with
  | tcp => simp [unread, ht]
  | udp => simp [unread, ht]

/-- What `read` gives of a stream that has not ended: nothing yet, or its next bytes. -/
theorem recv_cases (len : ℕ) (hlen : 0 < len) (hbuf : c.rbuf = []) (hne : c.unread ≠ []) :
    (∃ sock, c.recv len = (none, sock) ∧ sock.length < c.sock.length ∧ c.Drops 0 [] sock) ∨
    ∃ b bs sock, c.recv len = (some (b :: bs), sock) ∧ sock.length ≤ c.sock.length ∧
      (b :: bs).length ≤ len ∧
      c.unread.take (b :: bs).length = b :: bs ∧ c.Drops (b :: bs).length [] sock := by
  cases ht : c.transport with
  | udp => simp [unread, ht, hbuf] at hne
  | tcp =>
    match hs : c.sock with
    | [] => simp [unread, ht, hbuf, hs] at hne
    | [] :: segs =>
      exact Or.inl ⟨segs, by simp [recv, ht, hs], by simp,
        ⟨by simp [unread, withInput, ht, hbuf, hs], by simp [ht]⟩⟩
    | (b :: bs) :: segs =>
      have htake : (b :: bs).take len = b :: bs.take (len - 1) := by
        rw [show len = len - 1 + 1 from by omega, take_succ_cons, Nat.add_sub_cancel]
      have hrecv : c.recv len = (some (b :: bs.take (len - 1)),
          if (b :: bs).length ≤ len then segs else (b :: bs).drop len :: segs) := by
        simp only [recv, ht, hs, htake]
      have hu : c.unread = (b :: bs) ++ segs.flatten := by simp [unread, ht, hbuf, hs]
      refine Or.inr ⟨b, bs.take (len - 1), _, hrecv, ?_, ?_, ?_, ?_, by simp [ht]⟩
      · split <;> simp
      · rw [← htake, length_take]
        exact Nat.min_le_left _ _
      · rw [← htake, hu, length_take, take_append_of_le_length (Nat.min_le_right _ _), ← take_take,
          take_length]
      · rw [← htake, hu, length_take]
        split
        · rename_i hle
          rw [Nat.min_eq_right hle]
          simp [unread, withInput, ht]
        · rename_i hgt
          rw [Nat.min_eq_left (by omega), drop_append_of_le_length (by omega)]
          simp [unread, withInput, ht]

theorem recv_end (len : ℕ) (ht : c.transport = .tcp) (hbuf : c.rbuf = []) (hend : c.unread = []) :
    c.recv len = (some [], []) ∨
    ∃ sock, c.recv len = (none, sock) ∧ sock.length < c.sock.length ∧ c.Drops 0 [] sock := by
  match hs : c.sock with
  | [] => exact Or.inl (by simp [recv, ht, hs])
  | [] :: segs =>
    exact Or.inr ⟨segs, by simp [recv, ht, hs], by simp,
      ⟨by simp [unread, withInput, ht, hbuf, hs], by simp [ht]⟩⟩
  | (b :: bs) :: segs => simp [unread, ht, hs] at hend

/-! ### `conn_nread` -/

theorem advance_nil (c : Conn) : c.advance [] c.rbuf c.sock = c := by simp [advance, withInput]

theorem advance_advance (bytes bytes' rbuf rbuf' : Bytes) (sock sock' : List Bytes) (c : Conn) :
    (c.advance bytes rbuf sock).advance bytes' rbuf' sock' = c.advance (bytes ++ bytes') rbuf' sock' := by
  simp only [advance, withInput, append_assoc, length_append]
  push_cast
  rw [← Int.sub_sub]

theorem Drops.advance {n : ℕ} {r' : Bytes} {s' : List Bytes} (h : c.Drops m r s)
    (h' : (c.advance bytes r s).Drops n r' s') : c.Drops (m + n) r' s' :=
  Drops.trans (d := c.advance bytes r s) h rfl rfl rfl h'

theorem unread_advance (h : c.Drops m r s) :
    (c.advance bytes r s).unread = c.unread.drop m := h.unread_eq

theorem driveMachine_plain (hstate : c.state = .nread) (hk : c.rlbytes = k) (hpos : 0 < k)
    (hchunks : c.chunks = none) : c.driveMachine w = c.takeItemBytes := by
  simp only [driveMachine, hstate, nread, hk, hchunks]
  rw [if_neg (by omega), if_neg (by omega)]

theorem driveMachine_chunked (hstate : c.state = .nread) (hk : c.rlbytes = k) (hpos : 0 < k)
    (hchunks : c.chunks = some rooms) : c.driveMachine w = c.readIntoChunkedItem rooms := by
  simp only [driveMachine, hstate, nread, hk, hchunks]
  rw [if_neg (by omega), if_neg (by omega)]

theorem takeItemBytes_enough (hk : c.rlbytes = k) (hle : k ≤ c.rbuf.length) :
    c.takeItemBytes = c.advance (c.rbuf.take k) (c.rbuf.drop k) c.sock := by
  have hself : c.takeLeftovers = c.advance (c.rbuf.take k) (c.rbuf.drop k) c.sock := by
    simp [takeLeftovers, hk, Nat.min_eq_right hle]
  rw [takeItemBytes, hself, if_pos]
  simp [advance, hk, hle]

theorem takeItemBytes_more (hk : c.rlbytes = k) (hlt : c.rbuf.length < k) :
    c.takeItemBytes = (c.advance c.rbuf [] c.sock).takeFromSocket := by
  have hself : c.takeLeftovers = c.advance c.rbuf [] c.sock := by
    simp [takeLeftovers, hk, Nat.min_eq_left hlt.le]
  rw [takeItemBytes, hself, if_neg]
  simp only [advance, hk]
  omega

/-- The chunks have no room for `k` bytes. -/
def outOfChunks (chunks : Option (List ℕ)) (k : ℕ) : Bool :=
  match chunks with
  | none => false
  | some rooms => decide (rooms.sum < k)

theorem outOfChunks_some (rooms : List ℕ) (k : ℕ) : outOfChunks (some rooms) k = decide (rooms.sum < k) := rfl

theorem outOfChunks_zero (chunks : Option (List ℕ)) : outOfChunks chunks 0 = false := by
  cases chunks with
  | none => rfl
  | some rooms => simp [outOfChunks_some]

/-- The connection behind `bytes`, with the room that is left in the chunks. -/
def advanceItem (bytes rbuf : Bytes) (sock : List Bytes) (chunks : Option (List ℕ)) (c : Conn) : Conn :=
  { c.advance bytes rbuf sock with chunks := chunks }

theorem advanceItem_nil (c : Conn) : c.advanceItem [] c.rbuf c.sock c.chunks = c := by rw [advanceItem, advance_nil]

theorem advanceItem_same (bytes rbuf : Bytes) (sock : List Bytes) (c : Conn) :
    c.advanceItem bytes rbuf sock c.chunks = c.advance bytes rbuf sock := rfl

theorem advanceItem_advanceItem (bytes bytes' rbuf rbuf' : Bytes) (sock sock' : List Bytes)
    (chunks chunks' : Option (List ℕ)) (c : Conn) :
    (c.advanceItem bytes rbuf sock chunks).advanceItem bytes' rbuf' sock' chunks' =
      c.advanceItem (bytes ++ bytes') rbuf' sock' chunks' := by
  rw [advanceItem, advanceItem, advanceItem, ← advance_advance bytes bytes' rbuf rbuf' sock sock' c]
  rfl

theorem unread_advanceItem {chunks : Option (List ℕ)}
    (h : c.Drops m r s) : (c.advanceItem bytes r s chunks).unread = c.unread.drop m := h.unread_eq

def backlog (c : Conn) (k : ℕ) : ℕ := (c.chunks.getD []).length + k + c.sock.length

/-- What one pass of `conn_nread` does that waits for `k` bytes: it takes some, it finds no memory for a chunk, or the
stream has ended. -/
inductive NreadPass (c : Conn) (k : ℕ) : Conn → Prop
  | takes (m : ℕ) (r : Bytes) (s : List Bytes) (chunks : Option (List ℕ)) (hm : m ≤ k)
      (hu : m ≤ c.unread.length) (hd : c.Drops m r s) (hitem : c.chunks = none → chunks = none)
      (hout : outOfChunks chunks (k - m) = outOfChunks c.chunks k)
      (hroom : m = k ∨ outOfChunks chunks (k - m + 2) = outOfChunks c.chunks (k + 2))
      (hless : (c.advanceItem (c.unread.take m) r s chunks).backlog (k - m) < c.backlog k) :
      NreadPass c k (c.advanceItem (c.unread.take m) r s chunks)
  | noMemory (m : ℕ) (r : Bytes) (s : List Bytes) (chunks : Option (List ℕ)) (hm : m ≤ k)
      (hu : m ≤ c.unread.length) (hd : c.Drops m r s) (hitem : c.chunks ≠ none)
      (hout : c.protocol = .ascii → m < k ∧ outOfChunks c.chunks k = true)
        (hroom : outOfChunks c.chunks (k + 2) = true) :
      NreadPass c k (c.advanceItem (c.unread.take m) r s chunks).nreadOutOfMemory
  | ends (d : Conn) (hu : c.unread.length < k) (hd : d.state = .closing) : NreadPass c k d

theorem takeItemBytes_pass (hk : c.rlbytes = k) (hpos : 0 < k) (hchunks : c.chunks = none)
    (hin : c.transport = .tcp ∨ k ≤ c.unread.length) : NreadPass c k c.takeItemBytes := by
  rcases Nat.lt_or_ge c.rbuf.length k with hlt | hge
  · have hbuf : c.Drops c.rbuf.length [] c.sock := by simpa using drops_rbuf (c := c) c.rbuf.length le_rfl
    have htake : c.unread.take c.rbuf.length = c.rbuf := by rw [take_unread _ le_rfl, take_length]
    have hle : c.rbuf.length ≤ c.unread.length := rbuf_length_le c
    have hleft : (c.advance c.rbuf [] c.sock).unread = c.unread.drop c.rbuf.length := unread_advance hbuf
    have hrl : (c.advance c.rbuf [] c.sock).rlbytes.toNat = k - c.rbuf.length := by
      simp only [advance, hk]
      omega
    -- the leftovers alone, when the socket has nothing yet
    have hnone : ∀ sock, (c.advance c.rbuf [] c.sock).recv (k - c.rbuf.length) = (none, sock) →
        sock.length < c.sock.length → (c.advance c.rbuf [] c.sock).Drops 0 [] sock →
          NreadPass c k c.takeItemBytes := by
      intro sock hrecv hlen hd
      have heq : c.takeItemBytes = c.advanceItem (c.unread.take c.rbuf.length) [] sock c.chunks := by
        rw [takeItemBytes_more hk hlt, takeFromSocket, hrl, hrecv, htake]
        rfl
      rw [heq]
      refine .takes c.rbuf.length [] sock c.chunks hlt.le hle (hbuf.advance hd) id (by rw [hchunks]; rfl)
        (Or.inr (by rw [hchunks]; rfl)) ?_
      show (c.chunks.getD []).length + (k - c.rbuf.length) + sock.length < (c.chunks.getD []).length + k + c.sock.length
      omega
    by_cases hend : (c.advance c.rbuf [] c.sock).unread = []
    · have hshort : c.unread.length < k := by
        rw [hleft, drop_eq_nil_iff] at hend
        omega
      have ht : c.transport = .tcp := hin.resolve_right (by omega)
      obtain hrecv | ⟨sock, hrecv, hlen, hd⟩ := recv_end (k - c.rbuf.length)
        (c := c.advance c.rbuf [] c.sock) ht rfl hend
      · refine .ends _ hshort ?_
        rw [takeItemBytes_more hk hlt, takeFromSocket, hrl, hrecv]
      · exact hnone sock hrecv hlen hd
    · obtain ⟨sock, hrecv, hlen, hd⟩ | ⟨b, bs, sock, hrecv, hlen, hbs, hpre, hd⟩ :=
        recv_cases (c := c.advance c.rbuf [] c.sock) (k - c.rbuf.length) (by omega) rfl hend
      · exact hnone sock hrecv hlen hd
      · have hlen' : sock.length ≤ c.sock.length := hlen
        have hfit : (b :: bs).length ≤ c.unread.length - c.rbuf.length := by
          have := congrArg length hpre
          rw [hleft, length_take, length_drop] at this
          omega
        have heq : c.takeItemBytes =
            c.advanceItem (c.unread.take (c.rbuf.length + (b :: bs).length)) [] sock c.chunks := by
          rw [takeItemBytes_more hk hlt, takeFromSocket, hrl, hrecv, take_add, htake, ← hleft, hpre,
            advanceItem_same, ← advance_advance c.rbuf (b :: bs) [] [] c.sock sock c]
          rfl
        rw [heq]
        refine .takes _ [] sock c.chunks (by omega) (by omega) (hbuf.advance hd) id (by rw [hchunks]; rfl)
          (Or.inr (by rw [hchunks]; rfl)) ?_
        show (c.chunks.getD []).length + (k - (c.rbuf.length + (b :: bs).length)) + sock.length <
          (c.chunks.getD []).length + k + c.sock.length
        simp only [length_cons]
        omega
  · have heq : c.takeItemBytes = c.advanceItem (c.unread.take k) (c.rbuf.drop k) c.sock c.chunks := by
      rw [takeItemBytes_enough hk hge, take_unread k hge]
      rfl
    rw [heq]
    refine .takes k _ _ c.chunks le_rfl (hge.trans (rbuf_length_le c)) (drops_rbuf k hge) id (by rw [hchunks]; rfl)
      (Or.inl rfl) ?_
    show (c.chunks.getD []).length + (k - k) + c.sock.length < (c.chunks.getD []).length + k + c.sock.length
    omega

/-- Behind the last byte: room for the end of the line, or no memory for it. -/
theorem roomForEnd_cases {room : ℕ} (h : c.chunks = some (room :: rooms)) :
    (c.roomForEnd = c ∨ c.rlbytes = 0 ∧ c.roomForEnd = { c with chunks := some rooms }) ∨
      (c.protocol = .binary ∧ c.rlbytes = 0 ∧ room < 2 ∧ rooms = []) ∧
        c.roomForEnd = nreadOutOfMemory { c with chunks := some [] } := by
  rw [roomForEnd]
  split
  · rename_i hend
    simp only [h]
    split
    · exact Or.inl (Or.inl rfl)
    · rename_i hroom
      split
      · rename_i hlast
        exact Or.inr ⟨⟨hend.2, hend.1, not_le.mp hroom, hlast⟩, rfl⟩
      · exact Or.inl (Or.inr ⟨hend.1, rfl⟩)
  · exact Or.inl (Or.inl rfl)

theorem fillChunk_pass {u : ℕ} (hk : c.rlbytes = k)
    (hm : 0 < m) (hmk : m ≤ k) (hmu : m ≤ u) (hu : m ≤ c.unread.length) (hs : s.length ≤ c.sock.length)
    (hchunks : c.chunks = some (u :: rooms)) (hd : c.Drops m r s) :
    NreadPass c k (c.fillChunk u rooms (c.unread.take m) r s) := by
  have hlen : (c.unread.take m).length = m := length_take_of_le hu
  have hrl : (c.advanceItem (c.unread.take m) r s (some ((u - m) :: rooms))).rlbytes = ((k - m : ℕ) : ℤ) := by
    simp only [advanceItem, advance, hk, hlen]
    omega
  have hfill : c.fillChunk u rooms (c.unread.take m) r s =
      roomForEnd (c.advanceItem (c.unread.take m) r s (some ((u - m) :: rooms))) := by
    rw [fillChunk, hlen]
    rfl
  have hsum : (u :: rooms).sum = u + rooms.sum := sum_cons
  rw [hfill]
  rcases roomForEnd_cases (c := c.advanceItem (c.unread.take m) r s (some ((u - m) :: rooms))) rfl with
    (heq | ⟨h0, heq⟩) | ⟨⟨hbin, h0, hroom, hlast⟩, heq⟩
  · rw [heq]
    refine .takes m r s _ hmk hu hd (by simp [hchunks]) ?_ (Or.inr ?_) ?_
    · rw [hchunks, outOfChunks_some, outOfChunks_some, hsum, sum_cons]
      exact decide_eq_decide.mpr (by omega)
    · rw [hchunks, outOfChunks_some, outOfChunks_some, hsum, sum_cons]
      exact decide_eq_decide.mpr (by omega)
    · simp only [backlog, advanceItem, advance, withInput, hchunks, Option.getD_some, length_cons]
      omega
  · rw [hrl] at h0
    obtain rfl : k = m := by omega
    rw [heq]
    refine .takes k r s (some rooms) hmk hu hd (by simp [hchunks]) ?_ (Or.inl rfl) ?_
    · rw [Nat.sub_self, outOfChunks_zero, hchunks, outOfChunks_some, hsum]
      exact (decide_eq_false (by omega)).symm
    · simp only [backlog, advanceItem, advance, withInput, hchunks, Option.getD_some, length_cons]
      omega
  · rw [heq]
    refine .noMemory m r s (some []) hmk hu hd (by simp [hchunks]) (fun hasc => ?_) ?_
    · have hbin' : c.protocol = .binary := hbin
      rw [hasc] at hbin'
      exact absurd hbin' (by decide)
    · rw [hrl] at h0
      rw [hchunks, outOfChunks_some, hsum, hlast]
      exact decide_eq_true (by rw [sum_nil]; omega)

theorem readIntoChunkedItem_pass (hk : c.rlbytes = k) (hpos : 0 < k)
    (hchunks : c.chunks = some rooms) (hin : c.transport = .tcp ∨ k ≤ c.unread.length) :
    NreadPass c k (c.readIntoChunkedItem rooms) := by
  -- a pass that takes no byte
  have hskip : ∀ r s rooms', c.Drops 0 r s → rooms'.sum = rooms.sum →
    rooms'.length + s.length < rooms.length + c.sock.length →
      c.readIntoChunkedItem rooms = c.advanceItem [] r s (some rooms') →
        NreadPass c k (c.readIntoChunkedItem rooms) := by
    intro r s rooms' hd hsum hlen heq
    rw [heq, ← take_zero (l := c.unread)]
    refine .takes 0 r s (some rooms') (Nat.zero_le k) (Nat.zero_le _) hd (by simp [hchunks]) ?_ (Or.inr ?_) ?_
    · rw [hchunks, outOfChunks_some, outOfChunks_some, hsum, Nat.sub_zero]
    · rw [hchunks, outOfChunks_some, outOfChunks_some, hsum, Nat.sub_zero]
    · simp only [backlog, advanceItem, advance, withInput, hchunks, Option.getD_some]
      omega
  match rooms, hchunks, hskip with
  | [], hchunks, _ =>
    have heq : c.readIntoChunkedItem [] =
      (c.advanceItem (c.unread.take 0) c.rbuf c.sock c.chunks).nreadOutOfMemory := by
      rw [take_zero, advanceItem_nil]
      rfl
    rw [heq]
    refine .noMemory 0 c.rbuf c.sock c.chunks (Nat.zero_le k) (Nat.zero_le _) (Drops.refl c) (by simp [hchunks])
      (fun _ => ⟨hpos, ?_⟩) ?_
    · rw [hchunks, outOfChunks_some]
      exact decide_eq_true hpos
    · rw [hchunks, outOfChunks_some]
      exact decide_eq_true (Nat.succ_pos _)
  | 0 :: rooms, hchunks, hskip =>
    refine hskip c.rbuf c.sock rooms (Drops.refl c) (by simp) (by simp) ?_
    rw [advanceItem, advance_nil]
    rfl
  | (u + 1) :: rooms, hchunks, hskip =>
    have htocopy : min c.rlbytes.toNat (u + 1) = min k (u + 1) := by rw [hk, Int.toNat_natCast]
    by_cases hbuf : c.rbuf = []
    · have hnone : ∀ sock, c.recv (min k (u + 1)) = (none, sock) → sock.length < c.sock.length →
        c.Drops 0 [] sock →
          NreadPass c k (c.readIntoChunkedItem ((u + 1) :: rooms)) := by
        intro sock hrecv hlen hd
        refine hskip [] sock _ hd rfl (by omega) ?_
        simp only [readIntoChunkedItem, hbuf, ne_eq, not_true_eq_false, if_false, htocopy, hrecv, advanceItem,
          advance, withInput, append_nil, ← hchunks]
        simp
      by_cases hend : c.unread = []
      · have hshort : c.unread.length < k := by simpa [hend] using hpos
        have ht : c.transport = .tcp := hin.resolve_right (by omega)
        obtain hrecv | ⟨sock, hrecv, hlen, hd⟩ := recv_end (min k (u + 1)) ht hbuf hend
        · refine .ends _ hshort ?_
          simp only [readIntoChunkedItem, hbuf, ne_eq, not_true_eq_false, if_false, htocopy, hrecv]
        · exact hnone sock hrecv hlen hd
      · obtain ⟨sock, hrecv, hlen, hd⟩ | ⟨b, bs, sock, hrecv, hlen, hbs, hpre, hd⟩ :=
          recv_cases (c := c) (min k (u + 1)) (by omega) hbuf hend
        · exact hnone sock hrecv hlen hd
        · have heq : c.readIntoChunkedItem ((u + 1) :: rooms) =
              c.fillChunk (u + 1) rooms (c.unread.take (b :: bs).length) [] sock := by
            simp only [readIntoChunkedItem, hbuf, ne_eq, not_true_eq_false, if_false, htocopy, hrecv, hpre]
          rw [heq]
          refine fillChunk_pass hk (by simp) (by omega) (by omega) ?_ hlen hchunks hd
          have := congrArg length hpre
          rw [length_take] at this
          omega
    · have hne : 0 < c.rbuf.length := length_pos_iff.mpr hbuf
      have hle := rbuf_length_le c
      have htake : c.rbuf.take (min k (u + 1)) = c.unread.take (min (min k (u + 1)) c.rbuf.length) := by
        rw [take_unread _ (Nat.min_le_right _ _), ← take_eq_take_min]
      have hdrop : c.rbuf.drop (min k (u + 1)) = c.rbuf.drop (min (min k (u + 1)) c.rbuf.length) := by
        rw [← drop_eq_drop_min]
      have heq : c.readIntoChunkedItem ((u + 1) :: rooms) =
          c.fillChunk (u + 1) rooms (c.unread.take (min (min k (u + 1)) c.rbuf.length))
            (c.rbuf.drop (min (min k (u + 1)) c.rbuf.length)) c.sock := by
        simp only [readIntoChunkedItem, ne_eq, hbuf, not_false_eq_true, if_true, htocopy, htake, hdrop]
      rw [heq]
      exact fillChunk_pass hk (by omega) (by omega) (by omega) (by omega) le_rfl hchunks
        (drops_rbuf _ (Nat.min_le_right _ _))

/-- How `conn_nread` ends that waits for `k` bytes.  In the text protocol it is the chunks' room that decides whether
the item is completed; the binary protocol may ask for two bytes more. -/
inductive NreadEnd (w : World) (c : Conn) (k : ℕ) : Prop
  | complete (r : Bytes) (s : List Bytes) (chunks : Option (List ℕ)) (hu : k ≤ c.unread.length)
      (hd : c.Drops k r s) (hitem : c.chunks = none → chunks = none) (hout : outOfChunks c.chunks k = false)
      (hp : Passes (driveMachine w) Settled c (c.advanceItem (c.unread.take k) r s chunks))
  | noMemory (j : ℕ) (r : Bytes) (s : List Bytes) (chunks : Option (List ℕ)) (hj : j ≤ k)
      (hu : j ≤ c.unread.length) (hd : c.Drops j r s) (hitem : c.chunks ≠ none)
      (hout : c.protocol = .ascii → j < k ∧ outOfChunks c.chunks k = true)
      (hroom : 0 < k ∧ outOfChunks c.chunks (k + 2) = true)
      (hp : Passes (driveMachine w) Settled c (c.advanceItem (c.unread.take j) r s chunks).nreadOutOfMemory)
  | closes (d : Conn) (hu : c.unread.length < k) (hd : d.state = .closing) (hp : Passes (driveMachine w) Settled c d)

/-- **`conn_nread`.**  The induction is on what is still to come. -/
theorem nread_end (n : ℕ) : ∀ (c : Conn) (k : ℕ), c.backlog k ≤ n → c.state = .nread → c.rlbytes = k →
    (c.transport = .tcp ∨ k ≤ c.unread.length) → NreadEnd w c k := by
  have hzero : ∀ c : Conn, NreadEnd w c 0 := fun c =>
    .complete c.rbuf c.sock c.chunks (Nat.zero_le _) (Drops.refl c) id (outOfChunks_zero _) (by
      rw [take_zero, advanceItem_nil]
      exact .refl c)
  induction n with
  | zero =>
    intro c k hn _ _ _
    obtain rfl : k = 0 := by
      simp only [backlog] at hn
      omega
    exact hzero c
  | succ n ih =>
    intro c k hn hstate hk hin
    rcases Nat.eq_zero_or_pos k with rfl | hpos
    · exact hzero c
    have hone : Passes (driveMachine w) Settled c (c.driveMachine w) := .one (not_settled (Or.inl hstate))
    have hpass : NreadPass c k (c.driveMachine w) := by
      cases hchunks : c.chunks with
      | none => exact driveMachine_plain hstate hk hpos hchunks ▸ takeItemBytes_pass hk hpos hchunks hin
      | some rooms =>
        exact driveMachine_chunked hstate hk hpos hchunks ▸ readIntoChunkedItem_pass hk hpos hchunks hin
    generalize c.driveMachine w = d at hone hpass
    cases hpass with
    | noMemory m r s chunks hm hu hd hitem hout hroom =>
      exact .noMemory m r s chunks hm hu hd hitem hout ⟨hpos, hroom⟩ hone
    | ends _ hu hd => exact .closes d hu hd hone
    | takes m r s chunks hm hu hd hitem hout hroom hless =>
      have hleft : (c.advanceItem (c.unread.take m) r s chunks).unread = c.unread.drop m := hd.unread_eq
      have hdrops : ∀ j r' s', (c.advanceItem (c.unread.take m) r s chunks).Drops j r' s' → c.Drops (m + j) r' s' :=
        fun j r' s' hd' => Drops.trans (d := c.advanceItem (c.unread.take m) r s chunks) hd rfl rfl rfl hd'
      have hlen : (c.unread.drop m).length = c.unread.length - m := length_drop
      have hrest := ih (c.advanceItem (c.unread.take m) r s chunks) (k - m) (by omega) hstate (by
        simp only [advanceItem, advance, hk, length_take]
        omega) (by rw [hleft, hlen]; exact hin.imp id (by omega))
      cases hrest with
      | complete r' s' chunks' hu' hd' hitem' hout' hp =>
        rw [hleft, hlen] at hu'
        rw [hleft, advanceItem_advanceItem, ← take_add, Nat.add_sub_cancel' hm] at hp
        exact .complete r' s' chunks' (by omega) (Nat.add_sub_cancel' hm ▸ hdrops _ _ _ hd')
          (fun hc => hitem' (hitem hc)) (hout ▸ hout') (hone.trans hp)
      | noMemory j r' s' chunks' hj hu' hd' hitem' hout' hroom' hp =>
        rw [hleft, hlen] at hu'
        rw [hleft, advanceItem_advanceItem, ← take_add] at hp
        exact .noMemory (m + j) r' s' chunks' (by omega) (by omega) (hdrops _ _ _ hd') (fun hc => hitem' (hitem hc))
          (fun hasc => ⟨by have := (hout' hasc).1; omega, hout ▸ (hout' hasc).2⟩)
          ⟨hpos, hroom.resolve_left (by omega) ▸ hroom'.2⟩ (hone.trans hp)
      | closes d hu' hd' hp =>
        rw [hleft, hlen] at hu'
        exact .closes d (by omega) hd' (hone.trans hp)

/-! ### `conn_swallow` -/

/-- The connection behind `m` bytes that have been thrown away. -/
def skip (m : ℕ) (rbuf : Bytes) (sock : List Bytes) (c : Conn) : Conn :=
  { c.withInput rbuf sock with sbytes := c.sbytes - m }

/-- How `conn_swallow` ends that throws away `k` bytes. -/
inductive SwallowEnd (w : World) (c : Conn) (k : ℕ) : Prop
  | done (r : Bytes) (s : List Bytes) (hu : k ≤ c.unread.length) (hd : c.Drops k r s)
      (hp : Passes (driveMachine w) Settled c { c.skip k r s with state := .newCmd })
  | closes (d : Conn) (hu : c.unread.length < k) (hd : d.state = .closing) (hp : Passes (driveMachine w) Settled c d)

theorem SwallowEnd.after (hm : m ≤ k) (hu : m ≤ c.unread.length)
    (hd : c.Drops m r s) (hone : Passes (driveMachine w) Settled c (c.skip m r s))
    (h : SwallowEnd w (c.skip m r s) (k - m)) : SwallowEnd w c k := by
  have hleft : (c.skip m r s).unread.length = c.unread.length - m := by
    rw [show (c.skip m r s).unread = c.unread.drop m from hd.unread_eq, length_drop]
  cases h with
  | done r' s' hu' hd' hp =>
    have hsb : c.sbytes - m - ((k - m : ℕ) : ℤ) = c.sbytes - k := by omega
    have hskip : { (c.skip m r s).skip (k - m) r' s' with state := .newCmd } =
        { c.skip k r' s' with state := .newCmd } := by
      simp only [skip, withInput, hsb]
    have hdrops := Drops.trans (d := c.skip m r s) hd rfl rfl rfl hd'
    exact .done r' s' (by omega) (Nat.add_sub_cancel' hm ▸ hdrops) (hone.trans (hskip ▸ hp))
  | closes d hu' hd' hp => exact .closes d (by omega) hd' (hone.trans hp)

/-- **`conn_swallow`.** -/
theorem swallow_end (n : ℕ) : ∀ (c : Conn) (k : ℕ), k + c.sock.length ≤ n → c.state = .swallow →
    c.sbytes.toNat = k →
    (c.transport = .tcp ∨ k ≤ c.unread.length) → SwallowEnd w c k := by
  have hdone : ∀ c : Conn, c.state = .swallow → c.sbytes ≤ 0 → SwallowEnd w c 0 := by
    intro c hstate hs
    have hstep : c.driveMachine w = { c.skip 0 c.rbuf c.sock with state := .newCmd } := by
      simp [driveMachine, hstate, swallow, if_pos hs, skip, withInput]
    exact .done c.rbuf c.sock (Nat.zero_le _) (Drops.refl c) (hstep ▸ .one (not_settled (Or.inr (Or.inl hstate))))
  induction n with
  | zero =>
    intro c k hn hstate hk _
    obtain rfl : k = 0 := by omega
    exact hdone c hstate (Int.toNat_eq_zero.mp hk)
  | succ n ih =>
    intro c k hn hstate hk hin
    rcases lt_or_ge 0 c.sbytes with hpos | hs
    · have hone : Passes (driveMachine w) Settled c c.swallow := by
        have hstep : c.driveMachine w = c.swallow := by simp only [driveMachine, hstate]
        exact hstep ▸ .one (not_settled (Or.inr (Or.inl hstate)))
      have hrest : ∀ m r s, m ≤ k → m ≤ c.unread.length → k - m + s.length ≤ n → c.Drops m r s →
          c.swallow = c.skip m r s → SwallowEnd w c k := by
        intro m r s hm hu hlen hd heq
        refine SwallowEnd.after hm hu hd (heq ▸ hone) (ih (c.skip m r s) (k - m) hlen hstate ?_ ?_)
        · show (c.sbytes - m).toNat = k - m
          omega
        · rw [show (c.skip m r s).unread = c.unread.drop m from hd.unread_eq, length_drop]
          exact hin.imp id (by omega)
      have hcond : ¬ c.sbytes ≤ 0 := by omega
      by_cases hbuf : c.rbuf = []
      · have hnone : ∀ sock, c.recv (min c.rsize k) = (none, sock) → sock.length < c.sock.length →
          c.Drops 0 [] sock →
            SwallowEnd w c k := by
          intro sock hrecv hlen hd
          refine hrest 0 [] sock (Nat.zero_le k) (Nat.zero_le _) (by omega) hd ?_
          simp only [swallow, if_neg hcond, hbuf, ne_eq, not_true_eq_false, if_false, hk, hrecv, withInput, skip]
          simp
        by_cases hend : c.unread = []
        · have hshort : c.unread.length < k := by simp only [hend, length_nil]; omega
          have ht : c.transport = .tcp := hin.resolve_right (by omega)
          obtain hrecv | ⟨sock, hrecv, hlen, hd⟩ := recv_end (min c.rsize k) ht hbuf hend
          · refine .closes c.swallow hshort ?_ hone
            simp only [swallow, if_neg hcond, hbuf, ne_eq, not_true_eq_false, if_false, hk, hrecv]
          · exact hnone sock hrecv hlen hd
        · obtain ⟨sock, hrecv, hlen, hd⟩ | ⟨b, bs, sock, hrecv, hlen, hbs, hpre, hd⟩ :=
            recv_cases (c := c) (min c.rsize k) (by have := c.rsize_pos; omega) hbuf hend
          · exact hnone sock hrecv hlen hd
          · have hfit := congrArg length hpre
            rw [length_take] at hfit
            refine hrest (b :: bs).length [] sock (by omega) (by omega) (by simp only [length_cons]; omega) hd ?_
            simp only [swallow, if_neg hcond, hbuf, ne_eq, not_true_eq_false, if_false, hk, hrecv, skip]
      · have hne : 0 < c.rbuf.length := length_pos_iff.mpr hbuf
        have hle := rbuf_length_le c
        refine hrest (min c.rbuf.length k) _ c.sock (Nat.min_le_right _ _) (by omega) (by omega)
          (drops_rbuf _ (Nat.min_le_left _ _)) ?_
        simp only [swallow, if_neg hcond, ne_eq, hbuf, not_false_eq_true, if_true, hk, skip]
    · obtain rfl : k = 0 := by omega
      exact hdone c hstate hs

/-! ### Behind a reply -/

/-- The connection is closed, or the rest of the datagram is forgotten. -/
def Abandoned (c : Conn) : Prop := c.state = .closing ∨ c.state = .read

def GivesUp (w : World) (c : Conn) : Prop := ∃ d, Until (driveMachine w) Settled c d ∧ d.Abandoned

/-- The command ends and the next one is looked for in `input`. -/
def ResumesAt (w : World) (c : Conn) (input : Bytes) : Prop :=
  ∃ d, Until (driveMachine w) Settled c d ∧ d.state = .newCmd ∧ d.unread = input

theorem GivesUp.of_passes (h : Passes (driveMachine w) Settled c d) (hd : d.GivesUp w) : c.GivesUp w := by
  obtain ⟨e, hu, he⟩ := hd
  exact ⟨e, h.until hu, he⟩

theorem ResumesAt.of_passes {input : Bytes} (h : Passes (driveMachine w) Settled c d)
    (hd : d.ResumesAt w input) : c.ResumesAt w input := by
  obtain ⟨e, hu, he⟩ := hd
  exact ⟨e, h.until hu, he⟩

theorem givesUp_closing (h : c.state = .closing) : c.GivesUp w :=
  ⟨c, until_here (Or.inr (Or.inl h)), Or.inl h⟩

theorem resumesAt_newCmd (h : c.state = .newCmd) : c.ResumesAt w c.unread := ⟨c, until_here (Or.inl h), h, rfl⟩

/-- The command ends, and exactly under `P` it does so well: with the connection given up, or before input that is
`good`. -/
def EndsIff (w : World) (good : Bytes → Prop) (P : Prop) (c : Conn) : Prop :=
  ∃ d, Until (driveMachine w) Settled c d ∧ ((d.Abandoned ∨ good d.unread) ↔ P)

section endings

variable {good : Bytes → Prop} {P Q : Prop}

theorem EndsIff.of_passes {d : Conn} (h : Passes (driveMachine w) Settled c d) (hd : d.EndsIff w good P) :
    c.EndsIff w good P := by
  obtain ⟨e, hu, he⟩ := hd
  exact ⟨e, h.until hu, he⟩

theorem EndsIff.congr (h : c.EndsIff w good P) (hPQ : P ↔ Q) : c.EndsIff w good Q := by
  obtain ⟨d, hu, hd⟩ := h
  exact ⟨d, hu, hd.trans hPQ⟩

theorem GivesUp.endsIff (h : c.GivesUp w) (hP : P) : c.EndsIff w good P := by
  obtain ⟨d, hu, hd⟩ := h
  exact ⟨d, hu, ⟨fun _ => hP, fun _ => Or.inl hd⟩⟩

theorem ResumesAt.endsIff {input : Bytes} (h : c.ResumesAt w input) (hP : good input ↔ P) :
    c.EndsIff w good P := by
  obtain ⟨d, hu, hs, rfl⟩ := h
  refine ⟨d, hu, ?_⟩
  rw [← hP]
  exact or_iff_right (by simp [Abandoned, hs])

end endings

/-- A connection that waits for its reply to be sent, and the state it goes to then. -/
structure Answers (c : Conn) (go : ConnState) : Prop where
  sends : c.state = .write ∨ c.state = .mwrite ∧ c.protocol = .binary
  goes : c.writeAndGo = go

theorem Answers.not_settled (h : c.Answers go) : ¬ c.Settled := by
  rcases h.sends with h | ⟨h, -⟩
  · exact Conn.not_settled (Or.inr (Or.inr (Or.inl h)))
  · exact Conn.not_settled (Or.inr (Or.inr (Or.inr (Or.inl h))))

theorem Answers.driveMachine (h : c.Answers go) : c.driveMachine w = c.sendReply w := by
  rcases h.sends with h | ⟨h, -⟩ <;> simp only [Conn.driveMachine, h]

theorem Answers.givesUp (h : c.Answers go) (hfail : w.sendFails c.log = true) : c.GivesUp w := by
  refine .of_passes (.one h.not_settled) ?_
  rw [h.driveMachine, sendReply, if_pos hfail]
  cases c.transport with
  | tcp => exact givesUp_closing rfl
  | udp => exact ⟨_, until_here (Or.inr (Or.inr ⟨rfl, rfl⟩)), Or.inr rfl⟩

theorem Answers.passes (h : c.Answers go) (hfail : w.sendFails c.log = false) :
    ∃ chunks, Passes (Conn.driveMachine w) Settled c { c with chunks := chunks, state := go } := by
  have hone : Passes (Conn.driveMachine w) Settled c (c.sendReply w) := h.driveMachine ▸ .one h.not_settled
  obtain ⟨hs | ⟨hs, hp⟩, rfl⟩ := h
  · have heq : c.sendReply w = { c with chunks := c.chunks, state := c.writeAndGo } := by simp [sendReply, hfail, hs]
    exact ⟨c.chunks, heq ▸ hone⟩
  · have heq : c.sendReply w = { c with chunks := none, state := c.writeAndGo } := by simp [sendReply, hfail, hs, hp]
    exact ⟨none, heq ▸ hone⟩

theorem Answers.resumes (h : c.Answers .newCmd) (hfail : w.sendFails c.log = false) : c.ResumesAt w c.unread := by
  obtain ⟨chunks, hp⟩ := h.passes hfail
  exact .of_passes hp (resumesAt_newCmd rfl)

theorem Answers.closes (h : c.Answers .closing) : c.GivesUp w := by
  cases hfail : w.sendFails c.log with
  | true => exact h.givesUp hfail
  | false =>
    obtain ⟨chunks, hp⟩ := h.passes hfail
    exact .of_passes hp (givesUp_closing rfl)

theorem Answers.swallows (h : c.Answers .swallow) (hfail : w.sendFails c.log = false)
    (hle : c.sbytes.toNat ≤ c.unread.length) : c.ResumesAt w (c.unread.drop c.sbytes.toNat) := by
  obtain ⟨chunks, hp⟩ := h.passes hfail
  refine .of_passes hp ?_
  cases swallow_end (w := w) _ { c with chunks := chunks, state := .swallow }
    c.sbytes.toNat le_rfl rfl rfl (Or.inr hle) with
  | done r s _ hd hp' =>
    rw [show c.unread.drop c.sbytes.toNat = _ from hd.unread_eq.symm]
    exact .of_passes hp' (resumesAt_newCmd rfl)
  | closes d hu _ _ => exact absurd hle (Nat.not_le.mpr hu)

theorem Answers.swallows_short (h : c.Answers .swallow) (hfail : w.sendFails c.log = false) (ht : c.transport = .tcp)
    (hlt : c.unread.length < c.sbytes.toNat) : c.GivesUp w := by
  obtain ⟨chunks, hp⟩ := h.passes hfail
  refine .of_passes hp ?_
  cases swallow_end (w := w) _ { c with chunks := chunks, state := .swallow }
    c.sbytes.toNat le_rfl rfl rfl (Or.inl ht) with
  | done r s hu _ _ => exact absurd hu (Nat.not_le.mpr hlt)
  | closes d _ hd hp' => exact .of_passes hp' (givesUp_closing hd)

/-- `x` is `c` with an answer: it looks for the next command, at once or behind a reply. -/
structure Replies (c x : Conn) : Prop where
  next : x.state = .newCmd ∨ x.Answers .newCmd
  unread_eq : x.unread = c.unread

theorem Replies.ends {x : Conn} (h : c.Replies x) : x.GivesUp w ∨ x.ResumesAt w c.unread := by
  rw [← h.unread_eq]
  rcases h.next with hs | hs
  · exact Or.inr (resumesAt_newCmd hs)
  · cases hfail : w.sendFails x.log with
    | true => exact Or.inl (hs.givesUp hfail)
    | false => exact Or.inr (hs.resumes hfail)

end reading

end Conn

end BmcCache
