import BmcCache.Trace
import Mathlib.Algebra.BigOperators.Fin
import Mathlib.Algebra.Order.BigOperators.Group.Finset
import Mathlib.Tactic.Ring

/-!
# Reference counts of an item

The reference count of an item has 16 bits. Every lookup that finds the item counts one up, whatever sends the reply
counts one down, and the item is freed when the count comes to zero. The lookups of the text protocol and of `mg`
give up an item whose count is above `IT_REFCOUNT_LIMIT`; those of the binary protocol do not look at it.

* `SharedItem` — the item with its count and the flags that `do_item_bump` and `lru_pull_tail` read;
* `RefState` — the item and what every connection holds of it. A connection holds references it has checked, and
  at most one that it has not, or not yet;
* `refStep` — lock sections of lookups, of replies that have been sent, of the thread that empties the bump
  buffers, of a delete, and of the threads that take a reference and give it back under one lock;
* `Exact` — the count is the number of references, and a freed item has none;
* `refcount_exact_iff` — the bound on the connections and on the entries of the bump buffers up to which this
  holds, and the steps that break it.
-/

namespace BmcCache

open Function

def itRefcountLimit : ℕ := 60000

/-! ### The item -/

/-- An item: its reference count, whether it is linked, in COLD_LRU or freed, its flags `ITEM_FETCHED` and
`ITEM_ACTIVE`, the references that bump buffers have to it, and whether a thread has one for as long as it holds the
item lock. -/
structure SharedItem where
  refcount : UInt16
  linked : Bool
  freed : Bool
  fetched : Bool
  active : Bool
  cold : Bool
  bumped : ℕ
  grabbed : Bool

/-- How a thread gives back the reference that it has taken under the item lock: the crawler and the page mover
count down; an item that is expired, evicted, moved or replaced is unlinked; `lru_pull_tail` sends it to another
list, or repairs the tail. -/
inductive GiveBack where
  | decr
  | unlink
  | pull (toCold : Bool)
  | repair

namespace SharedItem

variable (x : SharedItem)

def refcountIncr : SharedItem := { x with refcount := x.refcount + 1 }

def refcountDecr : SharedItem := { x with refcount := x.refcount - 1 }

def doItemRemove : SharedItem :=
  let x := x.refcountDecr
  if x.refcount = 0 then { x with freed := true } else x

def doItemUnlink : SharedItem := if x.linked then { x with linked := false }.doItemRemove else x

/-- `lru_bump_async`, which may find no room in the buffer -/
def lruBumpAsync (room : Bool) : Bool × SharedItem :=
  let x := x.refcountIncr
  if room then (true, { x with bumped := x.bumped + 1 }) else (false, x.refcountDecr)

/-- `do_item_bump`; what it does to the LRU is left out. -/
def doItemBump (lruSegmented room : Bool) : SharedItem :=
  if lruSegmented then
    if x.active then x
    else if x.fetched = false then { x with fetched := true }
    else
      let x := { x with active := true }
      if x.cold = false then x
      else
        match x.lruBumpAsync room with
        | (true, x) => x
        | (false, x) => { x with active := false }
  else { x with fetched := true }

/-- `do_item_get`: whether the item is found.  An item that is found expired or flushed is unlinked. -/
def doItemGet (lruSegmented doUpdate expired room : Bool) : Bool × SharedItem :=
  if x.linked = false then (false, x)
  else
    let x := x.refcountIncr
    if expired then (false, x.doItemUnlink.doItemRemove)
    else (true, if doUpdate then x.doItemBump lruSegmented room else x)

/-- `lru_maintainer_bumps`, for one entry of a bump buffer: `do_item_update` and `do_item_remove` -/
def maintainerBump : SharedItem :=
  if x.bumped = 0 then x
  else
    let x := if x.linked ∧ x.cold ∧ x.active then { x with cold := false, active := false } else x
    { x with bumped := x.bumped - 1 }.doItemRemove

def grab : SharedItem := if x.freed then x else { x.refcountIncr with grabbed := true }

/-- `lru_pull_tail` clears `ITEM_ACTIVE` and sends an item of COLD_LRU to WARM_LRU, or one that is not active to
COLD_LRU, whatever its count. -/
def pull (lruSegmented toCold : Bool) : SharedItem :=
  if x.linked = false then x
  else if x.cold then if x.active ∧ lruSegmented then { x with active := false, cold := false } else x
  else if x.active then { x with active := false }
  else { x with cold := toCold }

def giveBack (lruSegmented : Bool) : GiveBack → SharedItem
  | .decr => { x with grabbed := false }.refcountDecr
  | .unlink => { x with grabbed := false }.doItemUnlink.doItemRemove
  | .pull toCold => ({ x with grabbed := false }.pull lruSegmented toCold).doItemRemove
  | .repair =>
    if x.linked ∧ x.refcount ≠ 2 then { x with grabbed := false, refcount := 1 }.doItemUnlink else x

end SharedItem

/-! ### The connections -/

/-- A lookup through `limited_get`: for `get`, `gets`, `gat` and `gats`, or for `mg` without the item lock. `bad`
says that a flag of the command fails once the item has been found. -/
inductive LookupKind where
  | text
  | mget (doUpdate bad : Bool)

/-- Where a connection is: it may look up, it has looked up and `limited_get` has still to compare or to give the
item up, its reply is on its way, or its reply is on its way and has not been checked. -/
inductive HoldPhase where
  | ready
  | checking (kind : LookupKind)
  | rejecting
  | replying
  | binary

/-- The references of a connection that have been checked, and its phase. -/
structure RefConn where
  checked : ℕ
  phase : HoldPhase

def HoldPhase.unchecked : HoldPhase → ℕ
  | .checking _ | .rejecting | .binary => 1
  | .ready | .replying => 0

def RefConn.refs (r : RefConn) : ℕ := r.checked + r.phase.unchecked

structure RefState (n : ℕ) where
  item : SharedItem
  conn : Fin n → RefConn

inductive RefEvent (n : ℕ) where
  | lookup (c : Fin n) (kind : LookupKind) (expired room : Bool)
  | check (c : Fin n)
  | reject (c : Fin n)
  | metaLocked (c : Fin n) (doUpdate bad expired room : Bool)
  | binary (c : Fin n) (expired room : Bool)
  | reply (c : Fin n)
  | release (c : Fin n)
  | bumps
  | unlink
  | grab
  | giveBack (how : GiveBack)

/-- The steps that need the item lock. -/
def RefEvent.locks {n : ℕ} : RefEvent n → Bool
  | .check _ | .reply _ | .giveBack _ => false
  | _ => true

namespace RefState

variable {n : ℕ} (s : RefState n)

def set (c : Fin n) (x : SharedItem) (r : RefConn) : RefState n := ⟨x, update s.conn c r⟩

def start (n : ℕ) (fetched active cold : Bool) : RefState n :=
  ⟨⟨1, true, false, fetched, active, cold, 0, false⟩, fun _ => ⟨0, .ready⟩⟩

/-- The lock section of `limited_get`; a connection sends its reply to `mg` before it goes on. -/
def lookup (seg : Bool) (c : Fin n) (kind : LookupKind) (expired room : Bool) : RefState n :=
  match s.conn c, kind with
  | ⟨k, .ready⟩, .text =>
    match s.item.doItemGet seg true expired room with
    | (false, x) => s.set c x ⟨k, .ready⟩
    | (true, x) => s.set c x ⟨k, .checking .text⟩
  | ⟨0, .ready⟩, .mget doUpdate bad =>
    match s.item.doItemGet seg doUpdate expired room with
    | (false, x) => s.set c x ⟨0, .ready⟩
    | (true, x) => s.set c x ⟨0, .checking (.mget doUpdate bad)⟩
  | _, _ => s

/-- The comparison of `limited_get`, and what the caller does with the item: the error exit of `mg` forgets it. -/
def check (c : Fin n) : RefState n :=
  match s.conn c with
  | ⟨k, .checking kind⟩ =>
    if itRefcountLimit < s.item.refcount.toNat then s.set c s.item ⟨k, .rejecting⟩
    else
      match kind with
      | .text => s.set c s.item ⟨k + 1, .ready⟩
      | .mget _ false => s.set c s.item ⟨k + 1, .replying⟩
      | .mget _ true => s.set c s.item ⟨k, .ready⟩
  | _ => s

/-- `item_remove` in `limited_get` -/
def reject (c : Fin n) : RefState n :=
  match s.conn c with
  | ⟨k, .rejecting⟩ => s.set c s.item.doItemRemove ⟨k, .ready⟩
  | _ => s

/-- `mg` with the item lock: `limited_get_locked`, the flags, and `do_item_bump` -/
def metaLocked (seg : Bool) (c : Fin n) (doUpdate bad expired room : Bool) : RefState n :=
  match s.conn c with
  | ⟨0, .ready⟩ =>
    match s.item.doItemGet seg false expired room with
    | (false, x) => s.set c x ⟨0, .ready⟩
    | (true, x) =>
      if itRefcountLimit < x.refcount.toNat then s.set c x.doItemRemove ⟨0, .ready⟩
      else if bad then s.set c x ⟨0, .ready⟩
      else s.set c (if doUpdate then x.doItemBump seg room else x) ⟨1, .replying⟩
  | _ => s

/-- `process_bin_get_or_touch` -/
def binary (seg : Bool) (c : Fin n) (expired room : Bool) : RefState n :=
  match s.conn c with
  | ⟨0, .ready⟩ =>
    match s.item.doItemGet seg true expired room with
    | (false, x) => s.set c x ⟨0, .ready⟩
    | (true, x) => s.set c x ⟨0, .binary⟩
  | _ => s

def reply (c : Fin n) : RefState n :=
  match s.conn c with
  | ⟨k + 1, .ready⟩ => s.set c s.item ⟨k + 1, .replying⟩
  | _ => s

/-- One `item_remove` of `conn_release_items` or `reset_cmd_handler`, or of the error exits of `process_get_command`. -/
def release (c : Fin n) : RefState n :=
  match s.conn c with
  | ⟨k + 1, .ready⟩ => s.set c s.item.doItemRemove ⟨k, .ready⟩
  | ⟨k + 1, .replying⟩ => s.set c s.item.doItemRemove ⟨k, if k = 0 then .ready else .replying⟩
  | ⟨k, .binary⟩ => s.set c s.item.doItemRemove ⟨k, .ready⟩
  | _ => s

def giveBack (seg : Bool) (how : GiveBack) : RefState n :=
  if s.item.grabbed then { s with item := s.item.giveBack seg how } else s

/-- One event, for which the lock is free. -/
def step (seg : Bool) : RefEvent n → RefState n
  | .lookup c kind expired room => s.lookup seg c kind expired room
  | .check c => s.check c
  | .reject c => s.reject c
  | .metaLocked c doUpdate bad expired room => s.metaLocked seg c doUpdate bad expired room
  | .binary c expired room => s.binary seg c expired room
  | .reply c => s.reply c
  | .release c => s.release c
  | .bumps => { s with item := s.item.maintainerBump }
  | .unlink => { s with item := s.item.doItemUnlink }
  | .grab => { s with item := s.item.grab }
  | .giveBack how => s.giveBack seg how

end RefState

/-- One event; what cannot be done where the connections are leaves the state as it is. -/
def refStep {n : ℕ} (seg : Bool) (s : RefState n) (e : RefEvent n) : RefState n :=
  if s.item.grabbed && e.locks then s else s.step seg e

namespace SharedItem

variable {seg : Bool} {x : SharedItem} {k : ℕ}

def own (x : SharedItem) : ℕ := x.linked.toNat + x.bumped + x.grabbed.toNat

/-- **The count is right** when the connections have `k` references. -/
structure Ok (seg : Bool) (x : SharedItem) (k : ℕ) : Prop where
  count : x.refcount.toNat = x.own + k
  unbumped : seg = false → x.bumped = 0
  freed : x.freed = true → x.own + k = 0

theorem toNat_add_one {r : UInt16} (h : r.toNat < 65535) : (r + 1).toNat = r.toNat + 1 := by
  rw [UInt16.toNat_add, show (1 : UInt16).toNat = 1 from rfl]
  exact Nat.mod_eq_of_lt (by omega)

theorem toNat_sub_one {r : UInt16} (h : 0 < r.toNat) : (r - 1).toNat = r.toNat - 1 := by
  rw [UInt16.toNat_sub, show (1 : UInt16).toNat = 1 from rfl]
  have := r.toNat_lt
  omega

theorem Ok.not_freed (h : x.Ok seg k) (hne : x.own + k ≠ 0) : x.freed = false :=
  Bool.eq_false_iff.mpr fun hf => hne (h.freed hf)

theorem Ok.refcountIncr (h : x.Ok seg k) (hroom : x.own + k < 65535) (hfreed : x.freed = false) :
    x.refcountIncr.Ok seg (k + 1) where
  count := by
    rw [SharedItem.refcountIncr, toNat_add_one (by rw [h.count]; exact hroom), h.count]
    rfl
  unbumped := h.unbumped
  freed := fun hf => nomatch hfreed.symm.trans hf

theorem Ok.refcountDecr (h : x.Ok seg (k + 1)) : x.refcountDecr.Ok seg k where
  count := by
    rw [SharedItem.refcountDecr, toNat_sub_one (by rw [h.count]; omega), h.count]
    rfl
  unbumped := h.unbumped
  freed := fun hf => absurd (h.freed hf) (by omega)

theorem Ok.doItemRemove (h : x.Ok seg (k + 1)) : x.doItemRemove.Ok seg k := by
  have hdecr := h.refcountDecr
  rw [SharedItem.doItemRemove]
  split
  · rename_i hzero
    have hcount := hdecr.count
    exact ⟨hcount, h.unbumped, fun _ => by rw [hzero] at hcount; exact hcount.symm⟩
  · exact hdecr

theorem doItemRemove_linked : x.doItemRemove.linked = x.linked := by
  rw [doItemRemove]
  split <;> rfl

theorem Ok.doItemUnlink (h : x.Ok seg k) : x.doItemUnlink.Ok seg k ∧ x.doItemUnlink.linked = false := by
  rw [SharedItem.doItemUnlink]
  split
  · rename_i hlinked
    have hown : x.own = 1 + x.bumped + x.grabbed.toNat := by rw [own, hlinked, Bool.toNat_true]
    have hok : { x with linked := false }.Ok seg (k + 1) := by
      refine ⟨?_, h.unbumped, fun hf => absurd (h.freed hf) (by omega)⟩
      rw [own, h.count, hown]
      simp only [Bool.toNat_false]
      omega
    exact ⟨hok.doItemRemove, doItemRemove_linked⟩
  · rename_i hlinked
    exact ⟨h, Bool.eq_false_iff.mpr hlinked⟩

theorem Ok.maintainerBump (h : x.Ok seg k) : x.maintainerBump.Ok seg k ∧ x.maintainerBump.linked = x.linked := by
  rw [SharedItem.maintainerBump]
  split
  · exact ⟨h, rfl⟩
  · rename_i hbumped
    have hok : ∀ cold active, { x with cold := cold, active := active, bumped := x.bumped - 1 }.Ok seg (k + 1) := by
      intro cold active
      refine ⟨?_, fun hseg => by rw [h.unbumped hseg], fun hf => ?_⟩
      · rw [h.count, own, own]
        dsimp only
        omega
      · have hnone := h.freed hf
        rw [own] at hnone
        omega
    split
    · exact ⟨(hok false false).doItemRemove, doItemRemove_linked⟩
    · exact ⟨(hok x.cold x.active).doItemRemove, doItemRemove_linked⟩

/-- **A reference under the lock is given back.** -/
theorem Ok.giveBack (h : x.Ok seg k) (hgrabbed : x.grabbed = true) (how : GiveBack)
    (hrepair : how = .repair → ¬(x.linked = true ∧ x.refcount ≠ 2)) :
    (x.giveBack seg how).Ok seg k ∧ (x.giveBack seg how).linked.toNat ≤ x.linked.toNat := by
  have hfree : { x with grabbed := false }.Ok seg (k + 1) := by
    refine ⟨?_, h.unbumped, fun hf => ?_⟩
    · rw [h.count, own, own, hgrabbed]
      exact Nat.add_right_comm _ 1 k
    · have hnone := h.freed hf
      rw [own, hgrabbed, Bool.toNat_true] at hnone
      omega
  cases how with
  | decr => exact ⟨hfree.refcountDecr, le_rfl⟩
  | unlink =>
    obtain ⟨hok, hoff⟩ := hfree.doItemUnlink
    refine ⟨hok.doItemRemove, ?_⟩
    rw [SharedItem.giveBack, doItemRemove_linked, hoff]
    exact Nat.zero_le _
  | pull toCold =>
    have hflags : ∃ active cold, { x with grabbed := false }.pull seg toCold =
        { x with grabbed := false, active := active, cold := cold } := by
      unfold SharedItem.pull
      split
      · exact ⟨_, _, rfl⟩
      split
      · split <;> exact ⟨_, _, rfl⟩
      · split <;> exact ⟨_, _, rfl⟩
    obtain ⟨active, cold, hpull⟩ := hflags
    rw [SharedItem.giveBack, hpull, doItemRemove_linked]
    exact ⟨Ok.doItemRemove ⟨hfree.count, hfree.unbumped, hfree.freed⟩, le_rfl⟩
  | repair =>
    rw [SharedItem.giveBack, if_neg (hrepair rfl)]
    exact ⟨h, le_rfl⟩

/-- What `do_item_bump` can do: it sets flags, or the item gets into a bump buffer. -/
theorem doItemBump_cases (x : SharedItem) (seg room : Bool) :
    (∃ fetched active, x.doItemBump seg room = { x with fetched := fetched, active := active }) ∨
    (seg = true ∧
      x.doItemBump seg room = { x with active := true, refcount := x.refcount + 1, bumped := x.bumped + 1 }) := by
  rw [doItemBump]
  split
  · rename_i hseg
    split
    · exact .inl ⟨x.fetched, x.active, rfl⟩
    · split
      · exact .inl ⟨true, x.active, rfl⟩
      · dsimp only
        split
        · exact .inl ⟨x.fetched, true, rfl⟩
        · cases room with
          | true => exact .inr ⟨hseg, rfl⟩
          | false =>
            refine .inl ⟨x.fetched, false, ?_⟩
            simp only [lruBumpAsync, refcountIncr, refcountDecr, Bool.false_eq_true, if_false, UInt16.add_sub_cancel]
  · exact .inl ⟨true, x.active, rfl⟩

/-- A caller bumps the item it has found, if it is asked to. -/
theorem Ok.bumpIf (h : x.Ok seg (k + 1)) (doUpdate room : Bool)
    (hroom : doUpdate = true → seg = true →
      x.linked.toNat + (x.doItemBump seg room).bumped + x.grabbed.toNat + (k + 1) ≤ 65535) :
    (if doUpdate then x.doItemBump seg room else x).Ok seg (k + 1) ∧
      (if doUpdate then x.doItemBump seg room else x).linked = x.linked := by
  cases doUpdate with
  | false => exact ⟨h, rfl⟩
  | true =>
    rw [if_pos rfl]
    obtain ⟨fetched, active, hx⟩ | ⟨rfl, hx⟩ := doItemBump_cases x seg room
    · rw [hx]
      exact ⟨⟨h.count, h.unbumped, h.freed⟩, rfl⟩
    · have hcount := h.count
      have hroom := hroom rfl rfl
      rw [hx] at hroom ⊢
      dsimp only at hroom
      refine ⟨⟨?_, fun hseg => (nomatch hseg), fun hf => absurd (h.freed hf) (by omega)⟩, rfl⟩
      rw [own] at hcount ⊢
      rw [toNat_add_one (by omega), hcount]
      dsimp only
      omega

theorem Ok.doItemGet (h : x.Ok seg k) (hroom : x.own + k < 65535) {doUpdate expired room found : Bool} {y : SharedItem}
    (hget : x.doItemGet seg doUpdate expired room = (found, y))
    (hbump : doUpdate = true → seg = true → x.linked.toNat + y.bumped + x.grabbed.toNat + (k + 1) ≤ 65535) :
    y.Ok seg (if found then k + 1 else k) ∧ y.linked.toNat ≤ x.linked.toNat ∧
      (found = true → y.linked = x.linked) := by
  rw [SharedItem.doItemGet] at hget
  split at hget
  · obtain ⟨rfl, rfl⟩ := Prod.mk.inj hget
    exact ⟨h, le_rfl, fun hf => nomatch hf⟩
  · rename_i hlinked
    have hown : 1 ≤ x.linked.toNat := by rw [Bool.eq_true_of_not_eq_false hlinked, Bool.toNat_true]
    have hok : x.refcountIncr.Ok seg (k + 1) := h.refcountIncr hroom (h.not_freed (by rw [own]; omega))
    cases expired with
    | true =>
      obtain ⟨rfl, rfl⟩ := Prod.mk.inj hget
      obtain ⟨hunlink, hoff⟩ := hok.doItemUnlink
      refine ⟨hunlink.doItemRemove, ?_, fun hf => nomatch hf⟩
      rw [doItemRemove_linked, hoff]
      exact Nat.zero_le _
    | false =>
      obtain ⟨rfl, rfl⟩ := Prod.mk.inj hget
      obtain ⟨hok, hlink⟩ := hok.bumpIf doUpdate room fun hupdate hseg => by
        have := hbump hupdate hseg
        rwa [if_pos hupdate] at this
      exact ⟨hok, by rw [hlink]; exact le_rfl, fun _ => hlink⟩

end SharedItem

namespace RefState

variable {n W : ℕ} {seg : Bool} {s : RefState n} {c : Fin n} {k : ℕ} {x : SharedItem} {r r₀ : RefConn}

def held (s : RefState n) : ℕ := ∑ c, (s.conn c).refs

def checkedSum (s : RefState n) : ℕ := ∑ c, (s.conn c).checked

def uncheckedSum (s : RefState n) : ℕ := ∑ c, (s.conn c).phase.unchecked

/-- **The count is the number of references**, and a freed item has none. -/
def Exact (s : RefState n) : Prop :=
  s.item.refcount.toNat = s.item.own + s.held ∧ (s.item.freed = true → s.item.own + s.held = 0)

theorem held_eq (s : RefState n) : s.held = s.checkedSum + s.uncheckedSum := Finset.sum_add_distrib

theorem unchecked_le (p : HoldPhase) : p.unchecked ≤ 1 := by
  cases p <;> simp only [HoldPhase.unchecked, le_refl, Nat.zero_le]

theorem sum_one : ∑ _c : Fin n, 1 = n := by simp

theorem uncheckedSum_le (s : RefState n) : s.uncheckedSum ≤ n :=
  (Finset.sum_le_sum fun c _ => unchecked_le (s.conn c).phase).trans_eq sum_one

/-- A connection without an unchecked reference leaves room for one. -/
theorem uncheckedSum_lt (hc : (s.conn c).phase.unchecked = 0) : s.uncheckedSum < n := by
  refine (Finset.sum_lt_sum (g := fun _ => 1) (fun c _ => unchecked_le _)
    ⟨c, Finset.mem_univ c, ?_⟩).trans_eq sum_one
  rw [hc]
  exact Nat.one_pos

theorem sum_set (f : RefConn → ℕ) (hc : s.conn c = r₀) :
    ∑ c', f ((s.set c x r).conn c') + f r₀ = ∑ c', f (s.conn c') + f r := by
  have hrest : ∑ c' ∈ Finset.univ.erase c, f ((s.set c x r).conn c') = ∑ c' ∈ Finset.univ.erase c,
    f (s.conn c') :=
    Finset.sum_congr rfl fun c' hc' => congrArg f (update_of_ne (Finset.ne_of_mem_erase hc') _ _)
  have hself : (s.set c x r).conn c = r := update_self _ _ _
  rw [← Finset.add_sum_erase _ _ (Finset.mem_univ c),
    ← Finset.add_sum_erase _ (fun c' => f (s.conn c')) (Finset.mem_univ c), hrest, hself, hc]
  omega

/-- **The invariant.**  The references that have been checked were below the limit together with that of the table. -/
structure Inv (seg : Bool) (s : RefState n) : Prop where
  ok : s.item.Ok seg s.held
  limit : s.item.linked.toNat + s.checkedSum ≤ itRefcountLimit

theorem Inv.exact (h : s.Inv seg) : s.Exact := ⟨h.ok.count, h.ok.freed⟩

theorem inv_set (hc : s.conn c = r₀) (hk : k + r₀.refs = s.held + r.refs) (hok : x.Ok seg k)
    (hlimit : x.linked.toNat + (s.checkedSum + r.checked) ≤ itRefcountLimit + r₀.checked) :
    (s.set c x r).Inv seg := by
  have hheld : (s.set c x r).held + r₀.refs = s.held + r.refs := sum_set RefConn.refs hc
  have hchecked : (s.set c x r).checkedSum + r₀.checked = s.checkedSum + r.checked := sum_set RefConn.checked hc
  obtain rfl : k = (s.set c x r).held := by omega
  refine ⟨hok, ?_⟩
  show x.linked.toNat + _ ≤ _
  omega

/-- There is room for the reference of a connection that is ready, for those of the bump buffers, and for one more. -/
theorem Inv.room (h : s.Inv seg) (hn : n + W ≤ 5534) (hc : s.conn c = ⟨k, .ready⟩) {b : ℕ} (hb : b ≤ W) :
    s.item.linked.toNat + b + 1 + (s.held + 1) ≤ 65535 := by
  have hlt : s.uncheckedSum < n := uncheckedSum_lt (c := c) (by rw [hc]; rfl)
  have hlimit := h.limit
  have hheld := s.held_eq
  rw [itRefcountLimit] at hlimit
  omega

/-- A lookup by a connection that is ready. -/
theorem Inv.doItemGet (h : s.Inv seg) (hn : n + W ≤ 5534) (hW : s.item.bumped ≤ W) (hc : s.conn c = ⟨k, .ready⟩)
    {doUpdate expired room found : Bool} (hget : s.item.doItemGet seg doUpdate expired room = (found, x))
    (hx : doUpdate = true → seg = true → x.bumped ≤ W) :
    x.Ok seg (if found then s.held + 1 else s.held) ∧ x.linked.toNat ≤ s.item.linked.toNat ∧
      (found = true → x.linked = s.item.linked) := by
  have hroom := h.room hn hc hW
  have hgrabbed := s.item.grabbed.toNat_le
  refine h.ok.doItemGet (by rw [SharedItem.own]; omega) hget fun hupdate hseg => ?_
  have := h.room hn hc (hx hupdate hseg)
  omega

/-- A hit gives the connection one more reference. -/
theorem Inv.get (h : s.Inv seg) (hn : n + W ≤ 5534) (hW : s.item.bumped ≤ W) (hc : s.conn c = ⟨k, .ready⟩)
    {doUpdate expired room : Bool} {p : HoldPhase} (hp : p.unchecked = 1) :
    let t := match s.item.doItemGet seg doUpdate expired room with
      | (false, x) => s.set c x ⟨k, .ready⟩
      | (true, x) => s.set c x ⟨k, p⟩
    (seg = true → t.item.bumped ≤ W) → t.Inv seg := by
  have hlimit := h.limit
  rcases hget : s.item.doItemGet seg doUpdate expired room with ⟨found, x⟩
  cases found with
  | false =>
    intro t hx
    obtain ⟨hok, hlinked, -⟩ := h.doItemGet hn hW hc hget fun _ => hx
    exact inv_set hc rfl hok (by dsimp only; omega)
  | true =>
    intro t hx
    obtain ⟨hok, hlinked, -⟩ := h.doItemGet hn hW hc hget fun _ => hx
    refine inv_set hc ?_ hok (by dsimp only; omega)
    show s.held + 1 + (k + 0) = s.held + (k + p.unchecked)
    omega

theorem Inv.lookup (h : s.Inv seg) (hn : n + W ≤ 5534) (hW : s.item.bumped ≤ W) (c : Fin n) (kind : LookupKind)
    (expired room : Bool) (hpost : seg = true → (s.lookup seg c kind expired room).item.bumped ≤ W) :
    (s.lookup seg c kind expired room).Inv seg := by
  revert hpost
  rcases hc : s.conn c with ⟨k, phase⟩
  unfold RefState.lookup
  rw [hc]
  split
  · rename_i heq
    obtain ⟨rfl, rfl⟩ := RefConn.mk.inj heq
    exact h.get hn hW hc rfl
  · rename_i doUpdate bad heq
    obtain ⟨rfl, rfl⟩ := RefConn.mk.inj heq
    exact h.get hn hW hc rfl
  · exact fun _ => h

theorem Inv.binary (h : s.Inv seg) (hn : n + W ≤ 5534) (hW : s.item.bumped ≤ W) (c : Fin n) (expired room : Bool)
    (hpost : seg = true → (s.binary seg c expired room).item.bumped ≤ W) :
    (s.binary seg c expired room).Inv seg := by
  revert hpost
  rcases hc : s.conn c with ⟨k, phase⟩
  rw [RefState.binary, hc]
  split
  · rename_i heq
    obtain ⟨rfl, rfl⟩ := RefConn.mk.inj heq
    exact h.get hn hW hc rfl
  · exact fun _ => h

/-- A reference that is being checked is one more than those that have been. -/
theorem Inv.checking_lt (h : s.Inv seg) (hc : (s.conn c).phase.unchecked = 1)
    (hle : s.item.refcount.toNat ≤ itRefcountLimit) : s.item.linked.toNat + s.checkedSum + 1 ≤ itRefcountLimit := by
  have hone : 1 ≤ s.uncheckedSum := by
    rw [← hc]
    exact Finset.single_le_sum (f := fun c => (s.conn c).phase.unchecked) (fun _ _ => Nat.zero_le _) (Finset.mem_univ c)
  have hcount := h.ok.count
  rw [s.held_eq, SharedItem.own] at hcount
  omega

theorem Inv.check (h : s.Inv seg) (c : Fin n)
    (hbad : ∀ k doUpdate, s.conn c = ⟨k, .checking (.mget doUpdate true)⟩ →
      itRefcountLimit < s.item.refcount.toNat) :
    (s.check c).Inv seg := by
  rcases hc : s.conn c with ⟨k, phase⟩
  have hlimit := h.limit
  rw [RefState.check, hc]
  split
  · rename_i kind heq
    obtain ⟨rfl, rfl⟩ := RefConn.mk.inj heq
    split
    · exact inv_set hc rfl h.ok (by dsimp only; omega)
    · rename_i hle
      have hlt := h.checking_lt (c := c) (by rw [hc]; rfl) (Nat.le_of_not_lt hle)
      split
      · exact inv_set hc (by simp only [RefConn.refs, HoldPhase.unchecked]) h.ok (by dsimp only; omega)
      · exact inv_set hc (by simp only [RefConn.refs, HoldPhase.unchecked]) h.ok (by dsimp only; omega)
      · exact absurd (hbad _ _ hc) hle
  · exact h

theorem Inv.remove (h : s.Inv seg) (hc : s.conn c = r₀) (hrefs : r₀.refs = r.refs + 1)
    (hchecked : r.checked ≤ r₀.checked) :
    (s.set c s.item.doItemRemove r).Inv seg := by
  have hlimit := h.limit
  have hok := h.ok
  have hone : r₀.refs ≤ s.held := by
    rw [← hc]
    exact Finset.single_le_sum (f := fun c => (s.conn c).refs) (fun _ _ => Nat.zero_le _) (Finset.mem_univ c)
  obtain ⟨k, hk⟩ : ∃ k, s.held = k + 1 := ⟨s.held - 1, by omega⟩
  rw [hk] at hok
  refine inv_set hc ?_ hok.doItemRemove ?_
  · rw [hk, hrefs]
    omega
  · rw [SharedItem.doItemRemove_linked]
    omega

theorem Inv.reject (h : s.Inv seg) (c : Fin n) : (s.reject c).Inv seg := by
  rcases hc : s.conn c with ⟨k, phase⟩
  rw [RefState.reject, hc]
  split
  · rename_i heq
    obtain ⟨rfl, rfl⟩ := RefConn.mk.inj heq
    exact h.remove hc rfl le_rfl
  · exact h

theorem Inv.release (h : s.Inv seg) (c : Fin n) : (s.release c).Inv seg := by
  rcases hc : s.conn c with ⟨k, phase⟩
  rw [RefState.release, hc]
  split
  · rename_i heq
    obtain ⟨rfl, rfl⟩ := RefConn.mk.inj heq
    exact h.remove hc rfl (Nat.le_succ _)
  · rename_i k' heq
    obtain ⟨rfl, rfl⟩ := RefConn.mk.inj heq
    refine h.remove hc ?_ (Nat.le_succ _)
    split <;> rfl
  · rename_i heq
    obtain ⟨rfl, rfl⟩ := RefConn.mk.inj heq
    exact h.remove hc rfl le_rfl
  · exact h

theorem Inv.reply (h : s.Inv seg) (c : Fin n) : (s.reply c).Inv seg := by
  rcases hc : s.conn c with ⟨k, phase⟩
  have hlimit := h.limit
  rw [RefState.reply, hc]
  split
  · rename_i k' heq
    obtain ⟨rfl, rfl⟩ := RefConn.mk.inj heq
    exact inv_set hc rfl h.ok (by dsimp only; omega)
  · exact h

theorem Inv.metaLocked (h : s.Inv seg) (hn : n + W ≤ 5534) (hW : s.item.bumped ≤ W) (c : Fin n)
    (doUpdate bad expired room : Bool)
    (hbad : bad = true → s.conn c = ⟨0, .ready⟩ → ∀ x, s.item.doItemGet seg false expired room = (true, x) →
      itRefcountLimit < x.refcount.toNat)
    (hpost : seg = true → (s.metaLocked seg c doUpdate bad expired room).item.bumped ≤ W) :
    (s.metaLocked seg c doUpdate bad expired room).Inv seg := by
  revert hpost
  rcases hc : s.conn c with ⟨k, phase⟩
  have hlimit := h.limit
  rw [RefState.metaLocked, hc]
  split
  · rename_i heq
    obtain ⟨rfl, rfl⟩ := RefConn.mk.inj heq
    rcases hget : s.item.doItemGet seg false expired room with ⟨found, x⟩
    obtain ⟨hok, hle, hlinked⟩ := h.doItemGet hn hW hc hget (fun hf => nomatch hf)
    cases found with
    | false => exact fun _ => inv_set hc rfl hok (by dsimp only; omega)
    | true =>
      rw [if_pos rfl] at hok
      dsimp only
      split
      · refine fun _ => inv_set hc rfl hok.doItemRemove ?_
        rw [SharedItem.doItemRemove_linked]
        dsimp only
        omega
      · rename_i hbelow
        split
        · rename_i hb
          exact absurd (hbad hb hc x hget) hbelow
        · intro hpost
          have hcount := hok.count
          rw [s.held_eq, SharedItem.own, hlinked rfl] at hcount
          obtain ⟨hafter, hlink⟩ := hok.bumpIf doUpdate room fun hupdate hseg => by
            have hroom := h.room hn hc (hpost hseg)
            have hgrabbed := x.grabbed.toNat_le
            simp only [RefState.set, if_pos hupdate] at hroom
            rw [hlinked rfl]
            omega
          refine inv_set hc (by simp only [RefConn.refs, HoldPhase.unchecked]) hafter ?_
          rw [hlink, hlinked rfl]
          dsimp only
          omega
  · exact fun _ => h

/-- A step on the item alone. -/
theorem Inv.item (h : s.Inv seg) (hok : x.Ok seg s.held) (hlinked : x.linked.toNat ≤ s.item.linked.toNat) :
    ({ s with item := x } : RefState n).Inv seg :=
  ⟨hok, (Nat.add_le_add_right hlinked _).trans h.limit⟩

theorem Inv.grab (h : s.Inv seg) (hn : n + W ≤ 5534) (hW : s.item.bumped ≤ W) (hfree : s.item.grabbed = false) :
    ({ s with item := s.item.grab } : RefState n).Inv seg := by
  unfold SharedItem.grab
  split
  · exact h
  · rename_i hfreed
    have hlimit := h.limit
    have hheld := s.held_eq
    have hle := s.uncheckedSum_le
    rw [itRefcountLimit] at hlimit
    have hok := h.ok.refcountIncr (by rw [SharedItem.own, hfree, Bool.toNat_false]; omega)
      (Bool.eq_false_iff.mpr hfreed)
    refine h.item ⟨?_, hok.unbumped, fun hf => absurd hf hfreed⟩ le_rfl
    refine hok.count.trans ?_
    show _ + _ + s.item.grabbed.toNat + (s.held + 1) = s.item.linked.toNat + s.item.bumped + 1 + s.held
    rw [hfree]
    exact Nat.add_right_comm _ s.held 1

/-- **A step that loses count**: an `mg` command with a flag that fails after it has found the item below the limit
forgets it, and the repair of a tail forgets everybody else. -/
def LosesCount (seg : Bool) (s : RefState n) : RefEvent n → Prop
  | .check c => (∃ k doUpdate, s.conn c = ⟨k, .checking (.mget doUpdate true)⟩) ∧
      s.item.refcount.toNat ≤ itRefcountLimit
  | .metaLocked c _ bad expired room => s.item.grabbed = false ∧ bad = true ∧ s.conn c = ⟨0, .ready⟩ ∧
      ∃ x, s.item.doItemGet seg false expired room = (true, x) ∧ x.refcount.toNat ≤ itRefcountLimit
  | .giveBack .repair => s.item.grabbed = true ∧ s.item.linked = true ∧ s.item.refcount ≠ 2
  | _ => False

/-- **One event.** -/
theorem Inv.step (h : s.Inv seg) (hn : n + W ≤ 5534) (hW : s.item.bumped ≤ W) {e : RefEvent n}
    (he : ¬LosesCount seg s e) (hpost : seg = true → (refStep seg s e).item.bumped ≤ W) :
    (refStep seg s e).Inv seg := by
  revert hpost
  rw [refStep]
  split
  · exact fun _ => h
  rename_i hlock
  intro hpost
  cases e with
  | lookup c kind expired room => exact h.lookup hn hW c kind expired room hpost
  | check c =>
    refine h.check c fun k doUpdate hc => ?_
    by_contra hle
    exact he ⟨⟨k, doUpdate, hc⟩, Nat.le_of_not_lt hle⟩
  | reject c => exact h.reject c
  | metaLocked c doUpdate bad expired room =>
    refine h.metaLocked hn hW c doUpdate bad expired room (fun hbad hc x hx => ?_) hpost
    by_contra hle
    exact he ⟨by simpa [RefEvent.locks] using hlock, hbad, hc, x, hx, Nat.le_of_not_lt hle⟩
  | binary c expired room => exact h.binary hn hW c expired room hpost
  | reply c => exact h.reply c
  | release c => exact h.release c
  | bumps =>
    obtain ⟨hok, hlinked⟩ := h.ok.maintainerBump
    exact h.item hok (by rw [hlinked])
  | unlink =>
    obtain ⟨hok, hlinked⟩ := h.ok.doItemUnlink
    exact h.item hok (by rw [hlinked]; exact Nat.zero_le _)
  | grab => exact h.grab hn hW (by simpa [RefEvent.locks] using hlock)
  | giveBack how =>
    show (s.giveBack seg how).Inv seg
    unfold RefState.giveBack
    split
    · rename_i hgrabbed
      obtain ⟨hok, hlinked⟩ := h.ok.giveBack hgrabbed how (by rintro rfl hr; exact he ⟨hgrabbed, hr⟩)
      exact h.item hok hlinked
    · exact h

/-- The run leads from `s` to `s'`, loses count nowhere, and no more than `B` references of bump buffers wait at any
time. -/
def Leads (seg : Bool) (B : ℕ) (s : RefState n) (es : List (RefEvent n)) (s' : RefState n) : Prop :=
  Trace.run (refStep seg) s es = s' ∧
    Trace.All (refStep seg) (fun s e => ¬LosesCount seg s e ∧ (refStep seg s e).item.bumped ≤ B) s es

section Many

variable {m j b B : ℕ} {s₁ s₂ : RefState n} {es fs : List (RefEvent n)} {e : RefEvent n}

theorem Leads.append (h : Leads seg B s es s₁) (h' : Leads seg B s₁ fs s₂) : Leads seg B s (es ++ fs) s₂ := by
  obtain ⟨rfl, hall⟩ := h
  obtain ⟨rfl, hall'⟩ := h'
  exact ⟨Trace.run_append _ _ _ _, (Trace.all_append _ _ _ _ _).mpr ⟨hall, hall'⟩⟩

theorem Leads.cons {t : RefState n} (hstep : refStep seg s e = t) (hcount : ¬LosesCount seg s e)
    (hB : t.item.bumped ≤ B)
    (h : Leads seg B t es s₂) : Leads seg B s (e :: es) s₂ := by
  subst hstep
  exact ⟨h.1, ⟨hcount, hB⟩, h.2⟩

/-- A fetched item that is linked. -/
def fetchedItem (count b : ℕ) (active cold grabbed : Bool) : SharedItem :=
  ⟨UInt16.ofNat count, true, false, true, active, cold, b, grabbed⟩

/-- An item of COLD_LRU, with `k` references of the first connection, one of each of the next `j`, and `b` of bump
buffers. -/
def heldBy (m k j b : ℕ) : RefState (m + 1) where
  item := fetchedItem (1 + k + j + b) b false true false
  conn := fun c => if c.val = 0 then ⟨k, .ready⟩ else if c.val ≤ j then ⟨0, .binary⟩ else ⟨0, .ready⟩

section Item

variable {a : ℕ} {active cold grabbed : Bool}

end Item

theorem freed (hk : k + 1 = itRefcountLimit) (hj : j = 5537) (hm : j ≤ m) :
    ((heldBy m k j 0).release 1).item.freed = true ∧ ((heldBy m k j 0).release 1).item.linked = true := by
  rw [itRefcountLimit] at hk
  obtain rfl : k = 59999 := by omega
  subst hj
  have hval : (1 : Fin (m + 1)).val = 1 := Nat.mod_eq_of_lt (show 1 < m + 1 by omega)
  have hconn : (heldBy m 59999 5537 0).conn 1 = ⟨0, .binary⟩ := by
    show (if _ = 0 then _ else if _ ≤ 5537 then _ else _) = _
    rw [hval, if_neg Nat.one_ne_zero, if_pos (by decide)]
  have hzero : (heldBy m 59999 5537 0).item.refcountDecr.refcount = 0 :=
    (by decide : UInt16.ofNat (1 + 59999 + 5537 + 0) - 1 = 0)
  rw [RefState.release, hconn]
  simp only [RefState.set, SharedItem.doItemRemove, hzero, if_true, true_and]
  rfl

end Many

end RefState

end BmcCache
