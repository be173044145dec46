import BmcCache.BipBuffer
import Mathlib.Algebra.BigOperators.Group.Finset.Basic
import Mathlib.Data.Fintype.BigOperators

/-!
# Items on their way to the LRU maintainer

A hit on a cold item goes to the worker's bump buffer with a reference to the item; the maintainer looks at a buffer,
handles its entries under the items' locks and then polls them, while the workers go on bumping.

* `BumpBuf.step` — the sections of `lru_bump_async` and of `lru_maintainer_bumps`;
* `Packs` — the bytes of a buffer are entries of sixteen bytes;
* `BumpBuf.Inv.step` — what one section does to the entries and to the references;
* `lru_bumps_balanced` — any number of workers and the maintainer, in any order.
-/

namespace BmcCache

open ByteBuffer List

/-- `lru_bump_entry`. -/
structure BumpEntry where
  it : UInt64
  hv : UInt32
  deriving DecidableEq

namespace BumpEntry

/-- What the two assignments store; four bytes of padding follow. -/
def bytes (e : BumpEntry) : Bytes := leBytes 8 e.it.toNat ++ leBytes 4 e.hv.toNat

def read (l : Bytes) : BumpEntry :=
  ⟨UInt64.ofNat (ofLeBytes (slice l 0 8)), UInt32.ofNat (ofLeBytes (slice l 8 4))⟩

theorem read_append (e : BumpEntry) (l : Bytes) : read (e.bytes ++ l) = e := by
  have hit : slice (e.bytes ++ l) 0 8 = leBytes 8 e.it.toNat := by simp [slice, bytes]
  have hhv : slice (e.bytes ++ l) 8 4 = leBytes 4 e.hv.toNat := by simp [slice, bytes]
  have hit' : e.it.toNat % 256 ^ 8 = e.it.toNat := Nat.mod_eq_of_lt e.it.toNat_lt
  have hhv' : e.hv.toNat % 256 ^ 4 = e.hv.toNat := Nat.mod_eq_of_lt e.hv.toNat_lt
  rw [read, hit, hhv, ofLeBytes_leBytes, ofLeBytes_leBytes, hit', hhv', UInt64.ofNat_toNat, UInt32.ofNat_toNat]

/-- One reference to the item. -/
def ref (e : BumpEntry) : UInt64 → ℤ := fun it => if e.it = it then 1 else 0

end BumpEntry

/-- `lru_bump_buf`, with where its worker and the maintainer are and the entries that went in and came out. -/
structure BumpBuf where
  buf : Bipbuf
  dropped : ℕ
  /-- The bump whose reference is taken and whose entry is not written yet. -/
  holding : Option BumpEntry
  /-- The variables `be`, `todo` and `size` of the maintainer. -/
  pass : Option (ℕ × ℕ × ℕ)
  accepted : List BumpEntry
  released : List BumpEntry

inductive BumpEvent where
  | hold (e : BumpEntry)
  | push
  | peek
  | entry
  | poll

namespace BumpBuf

def start (data : Bytes) : BumpBuf := ⟨Bipbuf.init data, 0, none, none, [], []⟩

/-- The locked part of `lru_bump_async`; the second component is what it does to the counts of references. -/
def lruBumpAsync (b : BumpBuf) (e : BumpEntry) : Option (BumpBuf × (UInt64 → ℤ)) :=
  match b.buf.request (16 : ℕ) with
  | none => some ({ b with dropped := b.dropped + 1 }, -e.ref)
  | some p => do
    let data ← storeBlock b.buf.data p e.bytes
    let (pushed, buf) := { b.buf with data := data }.push 16
    if pushed = 0 then some ({ b with buf := buf, dropped := b.dropped + 1 }, -e.ref)
    else some ({ b with buf := buf, accepted := b.accepted ++ [e] }, 0)

/-- One section of the worker (`hold`, `push`) or of the maintainer (`peek`, `entry`, `poll`); a section that is not the
next of its thread does nothing. -/
def step (b : BumpBuf) : BumpEvent → Option (BumpBuf × (UInt64 → ℤ))
  | .hold e => some (if b.holding.isSome then (b, 0) else ({ b with holding := some e }, e.ref))
  | .push =>
    match b.holding with
    | none => some (b, 0)
    | some e => { b with holding := none }.lruBumpAsync e
  | .peek =>
    match b.pass with
    | none => some ({ b with pass := b.buf.peekAll.map fun v => (v.1, v.2, v.2) }, 0)
    | some _ => some (b, 0)
  | .entry =>
    match b.pass with
    | none => some (b, 0)
    | some (be, todo, size) =>
      if todo = 0 then some (b, 0)
      else (loadBlock b.buf.data be 16).map fun bytes =>
        ({ b with pass := some (be + 16, (todo + (2 ^ 32 - 16)) % 2 ^ 32, size),
                  released := b.released ++ [BumpEntry.read bytes] }, -(BumpEntry.read bytes).ref)
  | .poll =>
    match b.pass with
    | some (_, 0, size) => some ({ b with buf := (b.buf.poll size).2, pass := none }, 0)
    | _ => some (b, 0)

/-- The entries that are written and not handled yet. -/
def pending (b : BumpBuf) : List BumpEntry := b.accepted.drop b.released.length

/-- The references to an item that the buffer and its worker hold. -/
def owed (b : BumpBuf) (it : UInt64) : ℤ := ((b.pending ++ b.holding.toList).map BumpEntry.it).count it

end BumpBuf

/-! ### Entries in a block -/

def Packs : Bytes → List BumpEntry → Prop
  | l, [] => l = []
  | l, e :: es => 16 ≤ l.length ∧ BumpEntry.read (l.take 16) = e ∧ Packs (l.drop 16) es

namespace Packs

variable {l : Bytes} {es : List BumpEntry}

theorem length_eq (h : Packs l es) : l.length = 16 * es.length := by
  induction es generalizing l with
  | nil => simp [show l = [] from h]
  | cons e es ih =>
    have hrest := ih h.2.2
    have hlong := h.1
    rw [length_drop] at hrest
    rw [length_cons]
    omega

theorem snoc (h : Packs l es) {c : Bytes} (hc : c.length = 16) : Packs (l ++ c) (es ++ [BumpEntry.read c]) := by
  induction es generalizing l with
  | nil =>
    rw [show l = [] from h]
    exact ⟨hc.ge, by rw [nil_append, take_of_length_le hc.le], drop_eq_nil_of_le hc.le⟩
  | cons e es ih =>
    refine ⟨by rw [length_append]; exact h.1.trans (Nat.le_add_right _ _), ?_, ?_⟩
    · rw [take_append_of_le_length h.1, h.2.1]
    · rw [drop_append_of_le_length h.1]
      exact ih h.2.2

theorem behind {done : List BumpEntry} (h : Packs l (done ++ es)) : Packs (l.drop (16 * done.length)) es := by
  induction done generalizing l with
  | nil => exact h
  | cons e done ih =>
    have hrest := ih h.2.2
    rwa [drop_drop, Nat.add_comm] at hrest

end Packs

namespace BumpBuf

/-- The regions begin and end between entries. -/
def Aligned (me : Bipbuf) : Prop := 16 ∣ me.aStart ∧ 16 ∣ me.aEnd ∧ 16 ∣ me.bEnd

theorem Aligned.advance {me : Bipbuf} (h : Aligned me) : Aligned (me.advance 16) := by
  obtain ⟨ha, he, hb⟩ := h
  unfold Bipbuf.advance Bipbuf.checkForSwitchToB Aligned
  split_ifs <;> simp only <;> omega

theorem Aligned.poll {me : Bipbuf} (h : Aligned me) {n : ℕ} (hn : 16 ∣ n) : Aligned (me.poll n).2 := by
  obtain ⟨ha, he, hb⟩ := h
  simp only [Bipbuf.poll, Bipbuf.checkForSwitchToB, Aligned]
  split_ifs <;> simp only <;> omega

/-- The buffer in the middle of a pass that has handled the entries `done`: they are still in the block. -/
structure Inv (done : List BumpEntry) (b : BumpBuf) : Prop where
  ok : b.buf.Ok
  aligned : Aligned b.buf
  order : b.released ++ b.pending = b.accepted
  packs : Packs b.buf.contents (done ++ b.pending)
  idle : b.pass = none → done = []
  seen : ∀ be todo size, b.pass = some (be, todo, size) → be = b.buf.aStart + 16 * done.length ∧
    todo + 16 * done.length = size ∧ 0 < size ∧ b.buf.aStart + size ≤ b.buf.aEnd ∧ 16 ∣ size

variable {b : BumpBuf} {done : List BumpEntry}

theorem owed_snoc (hpending : b.released.length ≤ b.accepted.length) (buf : Bipbuf) (e : BumpEntry) (it : UInt64) :
    { b with buf := buf, accepted := b.accepted ++ [e] }.owed it = b.owed it + e.ref it := by
  simp only [owed, pending, drop_append_of_le_length hpending, map_append, count_append, map_cons, map_nil,
    count_singleton, BumpEntry.ref, beq_iff_eq]
  push_cast
  ring

theorem Inv.push (h : Inv done b) (e : BumpEntry) : ∃ b' δ, b.lruBumpAsync e = some (b', δ) ∧ Inv done b' ∧
    ∀ it, b'.owed it = b.owed it + e.ref it + δ it := by
  have hle : b.released.length ≤ b.accepted.length := by
    rw [← h.order, length_append]
    exact Nat.le_add_right _ _
  rw [lruBumpAsync]
  cases hreq : b.buf.request (16 : ℕ) with
  | none =>
    refine ⟨_, _, rfl, ⟨h.ok, h.aligned, h.order, h.packs, h.idle, h.seen⟩, fun it => ?_⟩
    show b.owed it = b.owed it + e.ref it + -e.ref it
    ring
  | some p =>
    obtain ⟨rfl, hunused, hroom⟩ := h.ok.request hreq
    have hbytes : e.bytes.length = 12 := by simp [BumpEntry.bytes]
    have hfit : e.bytes.length ≤ b.buf.room := by omega
    obtain ⟨data, hstore, hok, hsame, hread⟩ := h.ok.store hfit
    have hpush := Bipbuf.push_eq { b.buf with data := data } hunused
    obtain ⟨hok', hcont, hstart, hend⟩ := hok.grow hroom
    have hchunk : slice data b.buf.tail 16 = e.bytes ++ slice data (b.buf.tail + 12) 4 := by
      rw [← hread, hbytes, slice_append]
    refine ⟨{ b with buf := { b.buf with data := data }.advance 16, accepted := b.accepted ++ [e] }, 0, ?_,
      ⟨hok', (show Aligned { b.buf with data := data } from h.aligned).advance, ?_, ?_, h.idle,
        fun be todo size hpass => ?_⟩, fun it => ?_⟩
    · simp only [hstore, hpush, Option.bind_eq_bind, Option.bind_some]
      rfl
    · show b.released ++ (b.accepted ++ [e]).drop b.released.length = b.accepted ++ [e]
      rw [drop_append_of_le_length hle, ← append_assoc]
      exact congrArg (· ++ [e]) h.order
    · show Packs _ (done ++ (b.accepted ++ [e]).drop b.released.length)
      have hpacks := h.packs.snoc (c := slice data b.buf.tail 16) (slice_length _ _ _ (hok.tail_add_le hroom))
      rw [hchunk, BumpEntry.read_append, append_assoc, ← hchunk] at hpacks
      rw [hcont, hsame, drop_append_of_le_length hle]
      exact hpacks
    · obtain ⟨hbe, htodo, hpos, hin, hdvd⟩ := h.seen be todo size hpass
      exact ⟨hbe.trans (by rw [← hstart]), htodo, hpos, by rw [hstart]; exact hin.trans hend, hdvd⟩
    · rw [owed_snoc hle]
      exact (add_zero _).symm

/-- A section succeeds, keeps the invariant, and reports what the buffer owes more or less. -/
def Keeps (b : BumpBuf) (r : Option (BumpBuf × (UInt64 → ℤ))) : Prop :=
  ∃ b' δ done', r = some (b', δ) ∧ Inv done' b' ∧ ∀ it, b'.owed it = b.owed it + δ it

theorem Inv.still (h : Inv done b) : b.Keeps (some (b, 0)) :=
  ⟨b, 0, done, rfl, h, fun _ => (add_zero _).symm⟩

/-- The entry the maintainer reads is the first one that waits. -/
theorem Inv.entry (h : Inv done b) {be todo size : ℕ} (hpass : b.pass = some (be, todo, size)) (htodo : todo ≠ 0) :
    b.Keeps (b.step .entry) := by
  obtain ⟨rfl, hsize, -, hin, hdvd⟩ := h.seen be todo size hpass
  have hreg := h.ok.regions
  have hblock := h.ok.block
  have hload := h.ok.slice_contents (k := 16 * done.length) (n := 16) (by omega)
  have hlong := h.packs.length_eq
  have hcont := h.ok.length_contents
  rw [length_append] at hlong
  cases hpend : b.pending with
  | nil =>
    rw [hpend, length_nil] at hlong
    omega
  | cons e rest =>
    obtain ⟨-, hread, -⟩ := (hpend ▸ h.packs).behind
    have hrest : b.accepted.drop (b.released ++ [e]).length = rest := by
      rw [length_append, length_singleton, ← drop_drop]
      exact congrArg (drop 1) hpend
    refine ⟨{ b with pass := some (b.buf.aStart + 16 * done.length + 16, (todo + (2 ^ 32 - 16)) % 2 ^ 32, size),
                     released := b.released ++ [e] }, -e.ref, done ++ [e], ?_,
                       ⟨h.ok, h.aligned, ?_, ?_, nofun, ?_⟩, fun it => ?_⟩
    · rw [BumpBuf.step, hpass]
      simp only [if_neg htodo, hload, Option.map_some, hread]
    · show b.released ++ [e] ++ b.accepted.drop (b.released ++ [e]).length = b.accepted
      rw [hrest, append_assoc, singleton_append, ← hpend, h.order]
    · show Packs b.buf.contents (done ++ [e] ++ b.accepted.drop (b.released ++ [e]).length)
      rw [hrest, append_assoc, singleton_append, ← hpend]
      exact h.packs
    · intro be' todo' size' hseen
      simp only [Option.some.injEq, Prod.mk.injEq] at hseen
      obtain ⟨rfl, rfl, rfl⟩ := hseen
      rw [length_append, length_singleton]
      refine ⟨by ring, ?_, by omega, hin, hdvd⟩
      omega
    · show ((((b.accepted.drop (b.released ++ [e]).length) ++ b.holding.toList).map BumpEntry.it).count it : ℤ)
        = b.owed it + -e.ref it
      rw [hrest, owed, hpend]
      simp [BumpEntry.ref, count_cons]

theorem Inv.step (h : Inv done b) (ev : BumpEvent) : b.Keeps (b.step ev) := by
  cases ev with
  | hold e =>
    rw [BumpBuf.step]
    cases hold : b.holding with
    | some e' => exact h.still
    | none =>
      refine ⟨{ b with holding := some e }, e.ref, done, rfl, ⟨h.ok, h.aligned, h.order, h.packs, h.idle, h.seen⟩,
        fun it => ?_⟩
      simp [owed, pending, hold, BumpEntry.ref, count_singleton]
  | push =>
    rw [BumpBuf.step]
    cases hold : b.holding with
    | none => exact h.still
    | some e =>
      obtain ⟨b', δ, hstep, hinv, howed⟩ := Inv.push (b := { b with holding := none })
        ⟨h.ok, h.aligned, h.order, h.packs, h.idle, h.seen⟩ e
      refine ⟨b', δ, done, hstep, hinv, fun it => (howed it).trans ?_⟩
      simp [owed, pending, hold, BumpEntry.ref, count_singleton]
  | peek =>
    rw [BumpBuf.step]
    cases hpass : b.pass with
    | some v => exact h.still
    | none =>
      refine ⟨_, 0, done, rfl, ⟨h.ok, h.aligned, h.order, h.packs, fun _ => h.idle hpass,
        fun be todo size hseen => ?_⟩, fun it => (add_zero _).symm⟩
      obtain ⟨⟨p, m⟩, hpeek, hv⟩ := Option.map_eq_some_iff.mp hseen
      obtain ⟨hp, hm, hpos⟩ := h.ok.peekAll hpeek
      obtain ⟨ha, he, -⟩ := h.aligned
      have hreg := h.ok.regions
      simp only [Prod.mk.injEq] at hv
      simp only [h.idle hpass, length_nil]
      omega
  | entry =>
    cases hpass : b.pass with
    | none =>
      rw [BumpBuf.step, hpass]
      exact h.still
    | some v =>
      by_cases htodo : v.2.1 = 0
      · rw [BumpBuf.step, hpass]
        simp only [if_pos htodo]
        exact h.still
      · exact h.entry hpass htodo
  | poll =>
    rw [BumpBuf.step]
    split
    · rename_i be size hpass
      obtain ⟨rfl, hsize, hpos, hin, hdvd⟩ := h.seen be 0 size hpass
      obtain ⟨-, hok, hcont⟩ := h.ok.poll (n := size) (by omega) (by omega)
      refine ⟨_, 0, [], rfl, ⟨hok, h.aligned.poll hdvd, h.order, ?_, fun _ => rfl, nofun⟩, fun it =>
        (add_zero _).symm⟩
      show Packs (b.buf.poll size).2.contents b.pending
      rw [hcont, ← hsize, Nat.zero_add]
      exact h.packs.behind
    · exact h.still

end BumpBuf

/-- The buffers of the workers and the items' counts of references, of sixteen bits. -/
structure BumpSystem (ι : Type*) where
  bufs : ι → BumpBuf
  refs : UInt64 → ℤ

variable {ι : Type*} [DecidableEq ι]

def BumpSystem.step (s : BumpSystem ι) (ev : ι × BumpEvent) : Option (BumpSystem ι) :=
  ((s.bufs ev.1).step ev.2).map fun r =>
    ⟨Function.update s.bufs ev.1 r.1, fun it => (s.refs it + r.2 it) % 2 ^ 16⟩

/-- A section of one worker's buffer changes the sum by what it owes more. -/
theorem sum_owed_update [Fintype ι] (bufs : ι → BumpBuf) (i : ι) (b : BumpBuf) (it : UInt64) :
    ∑ j, (Function.update bufs i b j).owed it = ∑ j, (bufs j).owed it + (b.owed it - (bufs i).owed it) := by
  have hmem := Finset.mem_univ i
  have hrest : ∑ j ∈ Finset.univ.erase i, (Function.update bufs i b j).owed it
      = ∑ j ∈ Finset.univ.erase i, (bufs j).owed it :=
    Finset.sum_congr rfl fun j hj => by rw [Function.update_of_ne (Finset.ne_of_mem_erase hj)]
  rw [← Finset.add_sum_erase _ _ hmem, ← Finset.add_sum_erase _ (fun j => (bufs j).owed it) hmem, hrest,
    Function.update_self]
  ring

/-- **Bumps are balanced.**  Workers and maintainer take their sections in any order: no access leaves a block, the
maintainer handles the entries of each buffer as they were accepted, each once and with its hash, and the count of an
item exceeds its first value by the entries that wait and the bumps under way. -/
theorem lru_bumps_balanced [Fintype ι] (blocks : ι → Bytes) (hblocks : ∀ i, (blocks i).length = 16 * 8192)
    (refs : UInt64 → ℤ) (hrefs : ∀ it, 0 ≤ refs it ∧ refs it < 2 ^ 16) (es : List (ι × BumpEvent)) :
    ∃ s, es.foldlM BumpSystem.step ⟨fun i => BumpBuf.start (blocks i), refs⟩ = some s ∧
      (∀ i, (s.bufs i).released ++ (s.bufs i).pending = (s.bufs i).accepted) ∧
      ∀ it, s.refs it = (refs it + ∑ i, (s.bufs i).owed it) % 2 ^ 16 := by
  let I : BumpSystem ι → Prop := fun s => (∀ i, ∃ done, BumpBuf.Inv done (s.bufs i)) ∧
    ∀ it, s.refs it = (refs it + ∑ i, (s.bufs i).owed it) % 2 ^ 16
  have hstart : I ⟨fun i => BumpBuf.start (blocks i), refs⟩ := by
    refine ⟨fun i => ⟨[], Bipbuf.Ok.init (by rw [hblocks]; decide),
      ⟨dvd_zero _, dvd_zero _, dvd_zero _⟩, rfl, rfl,
      fun _ => rfl, nofun⟩, fun it => ?_⟩
    have hzero : ∑ i, (BumpBuf.start (blocks i)).owed it = 0 := Finset.sum_eq_zero fun i _ => rfl
    rw [hzero, add_zero, Int.emod_eq_of_lt (hrefs it).1 (hrefs it).2]
  have hstep : ∀ s ev, I s → True → ∃ s', BumpSystem.step s ev = some s' ∧ I s' := by
    intro s ev h _
    obtain ⟨done, hinv⟩ := h.1 ev.1
    obtain ⟨b', δ, done', hb', hinv', howed⟩ := hinv.step ev.2
    refine ⟨_, by rw [BumpSystem.step, hb', Option.map_some], fun i => ?_, fun it => ?_⟩
    · show ∃ done, BumpBuf.Inv done (Function.update s.bufs ev.1 b' i)
      by_cases hi : i = ev.1
      · rw [hi, Function.update_self]
        exact ⟨done', hinv'⟩
      · rw [Function.update_of_ne hi]
        exact h.1 i
    · show (s.refs it + δ it) % 2 ^ 16 = (refs it + ∑ j, (Function.update s.bufs ev.1 b' j).owed it) % 2 ^ 16
      rw [sum_owed_update, howed it, h.2 it]
      omega
  obtain ⟨s, hrun, hI⟩ := Trace.foldlM_invariant I hstep _ es hstart (Trace.allPartial_of_forall fun _ _ => trivial)
  refine ⟨s, hrun, fun i => ?_, hI.2⟩
  obtain ⟨done, hinv⟩ := hI.1 i
  exact hinv.order

theorem lru_bumps_balanced_two :
    ∃ s, [((0 : Fin 2), BumpEvent.hold ⟨7, 9⟩), (0, .push), (1, .hold ⟨7, 9⟩), (0, .peek), (0, .entry)].foldlM
        BumpSystem.step ⟨fun _ => BumpBuf.start (replicate (16 * 8192) 0), fun _ => 1⟩ = some s ∧
      ∀ it, s.refs it = (1 + ∑ i, (s.bufs i).owed it) % 2 ^ 16 := by
  obtain ⟨s, hrun, -, hrefs⟩ := lru_bumps_balanced (fun _ => replicate (16 * 8192) 0) (fun _ => length_replicate)
    (fun _ => 1) (fun _ => by decide) [((0 : Fin 2), .hold ⟨7, 9⟩), (0, .push), (1, .hold ⟨7, 9⟩),
      (0, .peek), (0, .entry)]
  exact ⟨s, hrun, hrefs⟩

end BmcCache
