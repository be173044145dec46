import BmcCache.MetaCommands
import BmcCache.Trace

/-!
# What can happen to the store

Every command, and everything that happens behind its back: the clock, the LRU maintainer, the crawler, the page mover,
the expansion of the hash table, replies that hold their items.

* `StoreEvent`, `execEvent` — one event and its answer;
* `KeyStep` — what an event can do to the item of a key: it is removed, it stays with its CAS value, flags and
  content, or an item with a new CAS value is there;
* `StepSpec`, `execEvent_spec` — what every event can do, to every key and to the globals, said once and for all;
* `behind` — the store behind a run.
-/

namespace BmcCache

open ByteBuffer ItemStore

namespace ItemStore

def atItem (cfg : Settings) (key : Bytes) (f : StrItem → ItemStore) (s : ItemStore) : ItemStore :=
  match s.assocFind cfg key with
  | none => s
  | some it => f it

/-- The item that stands behind another one with its key is evicted.  `do_item_unlink` takes the one in front off the
chain; the item itself stays there, and is no longer linked. -/
def evictBehind (cfg : Settings) (key : Bytes) (s : ItemStore) : ItemStore :=
  let s' := s.assocDelete cfg key
  match s'.assocFind cfg key with
  | none => s
  | some it => if it.linked then s'.put cfg { it with linked := false, refcount := it.refcount - 1 } else s

end ItemStore

/-! ### Events -/

inductive StoreEvent where
  /-- a storage command with its item -/
  | store (m : Memory) (setStale : Bool) (comm : NreadComm) (it : StrItem)
  /-- `get`, `gets` and the retrievals of the binary protocol; a text command whose item is above the limit on
  references does the same to the store, but does not show the item -/
  | get (key : Bytes) (doUpdate async : Bool)
  /-- `touch`, `gat`, `gats` and those of the binary protocol -/
  | touch (key : Bytes) (exptime : ℤ) (async : Bool)
  | arith (m : Memory) (key : Bytes) (incr : Bool) (delta cas : ℕ)
  | mget (m : Memory) (key : Bytes) (flags : List MetaFlag) (async : Bool)
  /-- a deletion; also the one of an item whose successor found no memory -/
  | delete (key : Bytes) (cas : ℕ) (stale : Bool) (ttl : Option ℤ)
  | flush (exptime : ℤ)
  /-- replies begin to hold the item, or one ends to -/
  | hold (key : Bytes) (n : ℕ)
  | release (key : Bytes)
  | tick (n : ℕ)
  /-- the LRU maintainer bumps an item that was queued -/
  | bump (key : Bytes)
  /-- the LRU maintainer moves an item to another LRU -/
  | juggle (key : Bytes) (lruid : LruId) (active : Bool)
  /-- the LRU maintainer or the crawler finds an item -/
  | reclaim (key : Bytes)
  | evict (key : Bytes)
  | evictBehind (key : Bytes)
  | pageMove (key : Bytes) (room : Bool)
  | expand
  | moveBucket
  /-- `stats sizes_enable` draws a CAS id -/
  | drawId

inductive StoreReply where
  | stored (res : StoreItemType) (cas : ℕ)
  | found (it : Option StrItem)
  | delta (r : DeltaReply)
  | looped (st : Option MgetLoop)
  | deleted (r : DeleteResult)
  | done

namespace ItemStore

def execEvent (cfg : Settings) (s : ItemStore) : StoreEvent → StoreReply × ItemStore
  | .store m setStale comm it =>
    let (res, cas, s) := s.completeStore cfg m setStale comm it
    (.stored res cas, s)
  | .get key doUpdate async =>
    let (it, s) := s.getItem cfg key doUpdate async
    (.found it, s)
  | .touch key exptime async =>
    let (it, s) := s.touchItem cfg key exptime async
    (.found it, s)
  | .arith m key incr delta cas =>
    let (r, s) := s.doAddDelta cfg m key incr delta cas
    (.delta r, s)
  | .mget m key flags async =>
    let (st, s) := s.processMget cfg m key flags async
    (.looped st, s)
  | .delete key cas stale ttl =>
    let (r, s) := s.processDelete cfg key cas stale ttl
    (.deleted r, s)
  | .flush exptime => (.done, s.flushAll cfg exptime)
  | .hold key n => (.done, s.atItem cfg key fun it => s.put cfg { it with refcount := it.refcount + n })
  | .release key =>
    (.done, s.atItem cfg key fun it => if 2 ≤ it.refcount then (s.doItemRemove cfg it).2 else s)
  | .tick n => (.done, { s with currentTime := s.currentTime + n })
  | .bump key =>
    (.done, s.atItem cfg key fun it =>
      if 2 ≤ it.refcount then
        let (it, s) := s.doItemUpdate cfg it
        (s.doItemRemove cfg it).2
      else s)
  | .juggle key lruid active => (.done, s.atItem cfg key fun it =>
      s.put cfg { it with lruid := lruid, active := active })
  | .reclaim key =>
    (.done, s.atItem cfg key fun it => if s.isReclaimable it = true then (s.doItemUnlink cfg it).2 else s)
  | .evict key => (.done, s.atItem cfg key fun it => (s.doItemUnlink cfg it).2)
  | .evictBehind key => (.done, s.evictBehind cfg key)
  | .pageMove key room => (.done, s.pageMove cfg key room)
  | .expand => (.done, if s.table.expanding then s else { s with table := s.table.expand })
  | .moveBucket =>
    (.done, if s.table.expanding then { s with table := s.table.moveBucket StrItem.itemKey cfg.hash } else s)
  | .drawId => (.done, (s.newCas cfg).2)

end ItemStore

def StoreEvent.commandKey : StoreEvent → Option Bytes
  | .store _ _ _ it => some it.itemKey
  | .get key _ _ | .touch key _ _ | .arith _ key _ _ _ | .mget _ key _ _ | .delete key _ _ _ => some key
  | _ => none

/-- A command that puts a new value under its key when it succeeds. -/
def StoreEvent.Writes : StoreEvent → Prop
  | .store _ _ _ _ | .arith _ _ _ _ _ => True
  | .delete _ _ stale _ => stale = true
  | _ => False

/-- `mg` with `N` -/
def StoreEvent.Vivifies : StoreEvent → Prop
  | .mget _ _ flags _ => flags.any MetaFlag.isVivify = true
  | _ => False

/-- A command that removes the item of its key when it succeeds. -/
def StoreEvent.Deletes : StoreEvent → Prop
  | .delete _ _ stale _ => stale = false
  | _ => False

def StoreEvent.Evicts (key : Bytes) : StoreEvent → Prop
  | .evict k => k = key
  | .pageMove k room => k = key ∧ room = false
  | _ => False

def StoreReply.Succeeds : StoreReply → Prop
  | .stored res _ => res = .stored
  | .delta r => r.res = .ok
  | .deleted r => r = .deleted
  | .found _ | .looped _ | .done => False

instance : DecidablePred StoreReply.Succeeds
  | .stored res _ => inferInstanceAs (Decidable (res = .stored))
  | .delta r => inferInstanceAs (Decidable (r.res = .ok))
  | .deleted r => inferInstanceAs (Decidable (r = .deleted))
  | .found _ | .looped _ | .done => inferInstanceAs (Decidable False)

def StoreReply.ReportsCas (u : ℕ) : StoreReply → Prop
  | .stored res cas => res = .stored ∧ cas = u
  | .found it => it.map StrItem.itemGetCas = some u
  | .delta r => r.res = .ok ∧ r.cas = u
  | .looped st => (st.filter fun x => !x.failed).map (fun x => x.it.itemGetCas) = some u
  | .deleted _ | .done => False

instance (u : ℕ) : DecidablePred (StoreReply.ReportsCas u)
  | .stored res cas => inferInstanceAs (Decidable (res = .stored ∧ cas = u))
  | .found it => inferInstanceAs (Decidable (it.map StrItem.itemGetCas = some u))
  | .delta r => inferInstanceAs (Decidable (r.res = .ok ∧ r.cas = u))
  | .looped st =>
    inferInstanceAs (Decidable ((st.filter fun x => !x.failed).map (fun x => x.it.itemGetCas) = some u))
  | .deleted _ | .done => inferInstanceAs (Decidable False)

/-- What the client is shown with it is that of `it`. -/
def StoreReply.Shows (it : StrItem) : StoreReply → Prop
  | .found x => ∀ y, x = some y → y.flagsConv = it.flagsConv ∧ y.content = it.content
  | .looped x => ∀ st, x = some st → st.it.flagsConv = it.flagsConv ∧ st.it.content = it.content
  | .stored _ _ | .delta _ | .deleted _ | .done => True

def StoreEvent.ticks : StoreEvent → ℕ
  | .tick n => n
  | _ => 0

/-- The key of the item that the event is about. -/
def StoreEvent.itemKey : StoreEvent → Option Bytes
  | .hold key _ | .release key | .bump key | .juggle key _ _ | .reclaim key | .evict key | .evictBehind key
  | .pageMove key _ => some key
  | e => e.commandKey

/-- The references to it that the event takes, at most. -/
def StoreEvent.taken : StoreEvent → ℕ
  | .hold _ n => n
  | _ => 2

/-- The count of the item, which has 16 bits, does not wrap around. -/
def StoreEvent.Counted (cfg : Settings) (s : ItemStore) (e : StoreEvent) : Prop :=
  (e.itemKey.bind (s.assocFind cfg)).all (fun it => decide (it.refcount + e.taken < 2 ^ 16)) = true

instance (cfg : Settings) (s : ItemStore) (e : StoreEvent) : Decidable (e.Counted cfg s) :=
  inferInstanceAs (Decidable (_ = true))

/-- The item of a storage command is new, and `N` links no second item. -/
def StoreEvent.Proper (cfg : Settings) (s : ItemStore) : StoreEvent → Prop
  | .store _ _ _ it => Brought cfg it
  | .mget _ key flags _ => BelowLimit cfg s key flags
  | _ => True

def StoreEvent.Valid (cfg : Settings) (s : ItemStore) (e : StoreEvent) : Prop := e.Counted cfg s ∧ e.Proper cfg s

namespace ItemStore

variable {cfg : Settings} {s s' : ItemStore} {key : Bytes}

/-! ### What an event can do -/

/-- The event puts a new value under the key: a command that writes has succeeded, or `mg` has created an item. -/
def Stores (cfg : Settings) (s : ItemStore) (e : StoreEvent) (reply : StoreReply) (key : Bytes) : Prop :=
  e.commandKey = some key ∧
    (e.Writes ∧ reply.Succeeds ∨ e.Vivifies ∧ s.visible cfg key = none ∧ reply ≠ .looped none)

/-- A new item, with the next CAS value; its time is the clock or, if it was written over an old one, the one of
that. -/
structure NewItem (cfg : Settings) (s s' : ItemStore) (key : Bytes) (it' : StrItem) : Prop where
  find_eq : s'.assocFind cfg key = some it'
  cas_eq : it'.itemGetCas = nextCas cfg s.casId
  casId_eq : s'.casId = nextId cfg s.casId
  time_eq : it'.time = s.currentTime ∨ ∃ it, s.visible cfg key = some it ∧ it'.time = it.time

/-- **What happens to a key.** -/
inductive KeyStep (cfg : Settings) (s : ItemStore) (e : StoreEvent) (r : StoreReply × ItemStore) (key : Bytes) :
    Prop
  | unchanged (hfind' : r.2.assocFind cfg key = s.assocFind cfg key)
  /-- the key is looked up, and its item is dead -/
  | missed (hvisible : s.visible cfg key = none) (hfind' : r.2.assocFind cfg key = none)
  | kept (it it' : StrItem) (hfind : s.assocFind cfg key = some it) (hfind' : r.2.assocFind cfg key = some it')
      (hres : Resembles s.currentTime it it')
  | deleted (hev : e.Deletes) (hkey : e.commandKey = some key) (hdone : r.1.Succeeds)
      (hfind' : r.2.assocFind cfg key = none)
  | evicted (hev : e.Evicts key) (hfind' : r.2.assocFind cfg key = none)
  | reclaimed (it : StrItem) (hfind : s.assocFind cfg key = some it) (hdead : s.isReclaimable it = true)
      (hfind' : r.2.assocFind cfg key = none)
  | stored (it' : StrItem) (hstores : Stores cfg s e r.1 key) (hnew : NewItem cfg s r.2 key it')
  /-- a page move -/
  | relinked (it it' : StrItem) (hev : e = .pageMove key true) (hfind : s.assocFind cfg key = some it)
      (hrefs : it.refcount = 1) (hlive : s.isReclaimable it = false) (hnew : NewItem cfg s r.2 key it')

/-- **What an event can do**, to every key and to the globals, and what it tells. -/
structure StepSpec (cfg : Settings) (s : ItemStore) (e : StoreEvent) (r : StoreReply × ItemStore) : Prop where
  sound : r.2.Sound cfg
  casId_eq : r.2.casId = s.casId ∨ r.2.casId = nextId cfg s.casId
  keys : ∀ key, KeyStep cfg s e r key
  stored : ∀ key, Stores cfg s e r.1 key → ∃ it', NewItem cfg s r.2 key it'
  currentTime_eq : r.2.currentTime = s.currentTime + e.ticks
  oldest_eq : (∀ exptime, e ≠ .flush exptime) → r.2.oldestLive = s.oldestLive ∧ r.2.oldestCas = s.oldestCas
  reported : ∀ u, r.1.ReportsCas u → ∃ key it, e.commandKey = some key ∧ r.2.assocFind cfg key = some it ∧
    it.itemGetCas = u ∧ r.1.Shows it

section

variable {e : StoreEvent} {reply : StoreReply}

variable {v : Option StrItem} {it' : StrItem}

theorem StepSpec.of_effect {c : ℕ} (heff : Effect cfg s s' key v c)
    (hc : c = s.casId ∨ c = nextId cfg s.casId) (hticks : e.ticks = 0) (hkey : KeyStep cfg s e (reply, s') key)
    (hstored : ∀ k, Stores cfg s e reply k → ∃ it', NewItem cfg s s' k it')
    (hreply : ∀ u, reply.ReportsCas u → ∃ k it, e.commandKey = some k ∧ s'.assocFind cfg k = some it ∧
      it.itemGetCas = u ∧ reply.Shows it) : StepSpec cfg s e (reply, s') where
  sound := heff.sound
  casId_eq := by
    show s'.casId = _ ∨ s'.casId = _
    rw [heff.casId_eq]
    exact hc
  keys := by
    intro k
    by_cases hk : k = key
    · rw [hk]
      exact hkey
    · exact .unchanged (heff.find_ne hk)
  stored := hstored
  currentTime_eq := by
    show s'.currentTime = _
    rw [heff.currentTime_eq, hticks, Nat.add_zero]
  oldest_eq _ := ⟨heff.oldestLive_eq, heff.oldestCas_eq⟩
  reported := hreply

theorem StepSpec.of_silent {c : ℕ} (heff : Effect cfg s s' key v c)
    (hc : c = s.casId ∨ c = nextId cfg s.casId) (hticks : e.ticks = 0) (hkey : KeyStep cfg s e (reply, s') key)
    (hstores : ∀ k, ¬Stores cfg s e reply k) (hreply : ∀ u, ¬reply.ReportsCas u) : StepSpec cfg s e (reply, s') :=
  .of_effect heff hc hticks hkey (fun k hk => (hstores k hk).elim) fun u hu => (hreply u hu).elim

theorem not_stores (hidle : ¬e.Writes ∧ ¬e.Vivifies) (k : Bytes) : ¬Stores cfg s e reply k := by
  rintro ⟨-, ⟨hw, -⟩ | ⟨hv, -⟩⟩
  · exact hidle.1 hw
  · exact hidle.2 hv

theorem StepSpec.of_find (hs : s.Sound cfg) (hidle : ¬e.Writes ∧ ¬e.Vivifies)
    (hgood : s'.table.Good StrItem.itemKey cfg.hash) (hfind : s'.assocFind cfg = s.assocFind cfg)
    (hc : s'.casId = s.casId ∨ s'.casId = nextId cfg s.casId) (htime : s'.currentTime = s.currentTime + e.ticks)
    (hold : (∀ exptime, e ≠ .flush exptime) → s'.oldestLive = s.oldestLive ∧ s'.oldestCas = s.oldestCas) :
    StepSpec cfg s e (.done, s') where
  sound := ⟨hgood, by
    show ∀ key it, s'.assocFind cfg key = some it → _
    rw [hfind]
    exact hs.linked⟩
  casId_eq := hc
  keys key := .unchanged (congrFun hfind key)
  stored key h := (not_stores hidle key h).elim
  currentTime_eq := htime
  oldest_eq := hold
  reported _ h := h.elim

theorem StepSpec.refl (hs : s.Sound cfg) (hidle : ¬e.Writes ∧ ¬e.Vivifies) (hticks : e.ticks = 0) :
    StepSpec cfg s e (.done, s) :=
  .of_find hs hidle hs.good rfl (.inl rfl) (by rw [hticks, Nat.add_zero]) fun _ => ⟨rfl, rfl⟩

theorem StepSpec.of_kept {it : StrItem} (hkey : e.commandKey = some key) (hfind : s.assocFind cfg key = some it)
    (heff : Effect cfg s s' key (some it') s.casId) (hres : Resembles s.currentTime it it') (hticks : e.ticks = 0)
    (hstores : ∀ k, ¬Stores cfg s e reply k)
    (hreply : ∀ u, reply.ReportsCas u → it'.itemGetCas = u ∧ reply.Shows it') : StepSpec cfg s e (reply, s') :=
  .of_effect heff (.inl rfl) hticks (.kept it it' hfind heff.find_self hres)
    (fun k hk => (hstores k hk).elim) fun u hu =>
    ⟨key, it', hkey, heff.find_self, hreply u hu⟩

theorem StepSpec.of_accessed {it : StrItem} (hidle : ¬e.Writes ∧ ¬e.Vivifies)
    (hfind : s.assocFind cfg key = some it) (heff : Effect cfg s s' key (some it') s.casId)
    (hres : Resembles s.currentTime it it') (hticks : e.ticks = 0) : StepSpec cfg s e (.done, s') :=
  .of_silent heff (.inl rfl) hticks (.kept it it' hfind heff.find_self hres) (not_stores hidle) fun _ h => h

theorem StepSpec.of_looked (hkept : Kept cfg s key v) (heff : Effect cfg s s' key v s.casId)
    (hticks : e.ticks = 0) (hstores : ∀ k, ¬Stores cfg s e reply k) (hreply : ∀ u, ¬reply.ReportsCas u) :
    StepSpec cfg s e (reply, s') := by
  refine .of_silent heff (.inl rfl) hticks ?_ hstores hreply
  unfold Kept at hkept
  cases hvisible : s.visible cfg key with
  | none =>
    rw [hvisible] at hkept
    exact .missed hvisible (heff.find_self.trans hkept)
  | some it =>
    rw [hvisible] at hkept
    obtain ⟨it', rfl, hacc⟩ := hkept
    exact .kept it it' (find_of_visible hvisible) heff.find_self (.of_accessed hacc)

theorem StepSpec.of_stored (hstores : Stores cfg s e reply key)
    (heff : Effect cfg s s' key (some it') (nextId cfg s.casId)) (hcas : it'.itemGetCas = nextCas cfg s.casId)
    (htime : it'.time = s.currentTime ∨ ∃ it, s.visible cfg key = some it ∧ it'.time = it.time)
    (hticks : e.ticks = 0)
    (hreply : ∀ u, reply.ReportsCas u → it'.itemGetCas = u ∧ reply.Shows it') : StepSpec cfg s e (reply, s') := by
  have hnew : NewItem cfg s s' key it' := ⟨heff.find_self, hcas, heff.casId_eq, htime⟩
  refine .of_effect heff (.inr rfl) hticks (.stored it' hstores hnew) ?_ fun u hu =>
    ⟨key, it', hstores.1, heff.find_self, hreply u hu⟩
  intro k hk
  obtain rfl : key = k := Option.some.inj (hstores.1.symm.trans hk.1)
  exact ⟨it', hnew⟩

end

variable {now : ℕ} {it : StrItem}

theorem reported_found {shown it' : StrItem} (h : Resembles now it shown) (h' : Resembles now it it') (u : ℕ)
    (hu : (StoreReply.found (some shown)).ReportsCas u) :
    it'.itemGetCas = u ∧ (StoreReply.found (some shown)).Shows it' := by
  have hcas : shown.itemGetCas = u := Option.some.inj hu
  refine ⟨h'.cas_eq.trans (h.cas_eq.symm.trans hcas), ?_⟩
  rintro _ ⟨⟩
  exact ⟨h.flags_eq.trans h'.flags_eq.symm, h.content_eq.trans h'.content_eq.symm⟩

theorem reported_looped {it' : StrItem} {st : MgetLoop} (h : Resembles now it st.it)
    (h' : Resembles now it it') (u : ℕ) (hu : (StoreReply.looped (some st)).ReportsCas u) :
    it'.itemGetCas = u ∧ (StoreReply.looped (some st)).Shows it' := by
  obtain ⟨x, hx, hcas⟩ := Option.map_eq_some_iff.mp hu
  obtain rfl : st = x := Option.some.inj (Option.filter_eq_some_iff.mp hx).1
  refine ⟨h'.cas_eq.trans (h.cas_eq.symm.trans hcas), ?_⟩
  rintro _ ⟨⟩
  exact ⟨h.flags_eq.trans h'.flags_eq.symm, h.content_eq.trans h'.content_eq.symm⟩

theorem storeDecision_ne_stored {m : Memory} {setStale : Bool} {comm : NreadComm}
    {old : Option StrItem} : storeDecision cfg m setStale comm it now old ≠ .inl .stored := by
  cases old with
  | none => cases comm <;> simp [storeDecision]
  | some old =>
    cases comm with
    | add => simp [storeDecision]
    | set => simp [storeDecision]
    | replace => simp [storeDecision]
    | cas =>
      unfold storeDecision
      dsimp only
      split
      · simp
      · split <;> simp
    | append =>
      unfold storeDecision
      dsimp only
      split
      · simp
      · split <;> simp
    | prepend =>
      unfold storeDecision
      dsimp only
      split
      · simp
      · split <;> simp

theorem store_spec (hs : s.Sound cfg) (m : Memory) (setStale : Bool) (comm : NreadComm)
    (hit : Brought cfg it) :
    StepSpec cfg s (.store m setStale comm it) (s.execEvent cfg (.store m setStale comm it)) := by
  cases hdec : storeDecision cfg m setStale comm it s.currentTime ((s.visible cfg it.itemKey).map held) with
  | inl res =>
    obtain ⟨hres, v, hkept, heff⟩ := completeStore_refused hs hit hdec
    have hno : (s.completeStore cfg m setStale comm it).1 ≠ .stored := by
      intro hstored
      rw [hres] at hstored
      exact storeDecision_ne_stored (hstored ▸ hdec)
    refine .of_looked hkept heff rfl ?_ fun u hu => hno hu.1
    rintro k ⟨-, ⟨-, hdone⟩ | ⟨hv, -⟩⟩
    · exact hno hdone
    · exact hv
  | inr x =>
    obtain ⟨hres, hcas, heff, hx, hkey⟩ := completeStore_accepted hs hit hdec
    refine .of_stored ⟨rfl, .inl ⟨trivial, hres⟩⟩ heff (storedItem_cas hx.hasCas) (.inl rfl) rfl ?_
    rintro u ⟨-, hu⟩
    exact ⟨hcas.symm.trans hu, trivial⟩

theorem read_spec {e : StoreEvent} {exptime : Option ℕ} {r : Option StrItem × ItemStore}
    (h : ReadCase cfg s key exptime r)
    (hkey : e.commandKey = some key) (hidle : ¬e.Writes ∧ ¬e.Vivifies) (hticks : e.ticks = 0) :
    StepSpec cfg s e (.found r.1, r.2) := by
  cases h with
  | miss s' hvisible heff =>
    exact .of_silent heff (.inl rfl) hticks (.missed hvisible heff.find_self) (not_stores hidle)
      (by simp [StoreReply.ReportsCas])
  | hit it shown it' s' hvisible hshown hkept hexp heff =>
    exact .of_kept hkey (find_of_visible hvisible) heff hkept hticks (not_stores hidle) (reported_found hshown hkept)

theorem deltaDecision_ne_ok {m : Memory} {incr : Bool} {delta cas : ℕ} {old : Option StrItem} {res : DeltaResultType}
    (hok : res = .ok) : deltaDecision m incr delta cas old ≠ .inl res := by
  subst hok
  cases old with
  | none => simp [deltaDecision]
  | some it =>
    unfold deltaDecision
    dsimp only
    split
    · simp
    split
    · simp
    split <;> simp

theorem rewritten_cas (hcas : it.hasCas = cfg.useCas) (c : ℕ) (buf : Bytes) :
    (it.rewritten (nextCas cfg c) buf).itemGetCas = nextCas cfg c := by
  rw [StrItem.rewritten, StrItem.itemGetCas_writeData, StrItem.itemGetCas_writeData]
  exact itemGetCas_nextCas hcas c

theorem arith_spec (hs : s.Sound cfg) (m : Memory) (key : Bytes) (incr : Bool) (delta cas : ℕ) :
    StepSpec cfg s (.arith m key incr delta cas) (s.execEvent cfg (.arith m key incr delta cas)) := by
  have hcases := doAddDelta_cases hs m key incr delta cas
  simp only [execEvent]
  generalize s.doAddDelta cfg m key incr delta cas = got at hcases
  cases hcases with
  | refused res s' v hdec hkept heff =>
    refine .of_looked hkept heff rfl ?_ fun u hu => deltaDecision_ne_ok hu.1 hdec
    rintro k ⟨-, ⟨-, hdone⟩ | ⟨hv, -⟩⟩
    · exact deltaDecision_ne_ok hdone hdec
    · exact hv
  | nomem it value s' v hvisible hdec halloc hkept heff =>
    refine .of_looked hkept heff rfl ?_ fun u hu => nomatch hu.1
    rintro k ⟨-, ⟨-, hdone⟩ | ⟨hv, -⟩⟩
    · cases (show DeltaResultType.eom = .ok from hdone)
    · exact hv
  | written it it' value s' hvisible hdec hfits hrefs hit' heff =>
    have hcas := rewritten_cas (hs.linked _ _ (find_of_visible hvisible)).hasCas s.casId (itoaU64 3 value)
    refine .of_stored ⟨rfl, .inl ⟨trivial, rfl⟩⟩ heff (hit'.cas_eq.trans hcas) ?_ rfl fun u hu =>
      ⟨hu.2, trivial⟩
    rcases (Resembles.of_accessed hit').time_eq with ht | ht
    · exact .inr ⟨it, hvisible, ht⟩
    · exact .inl ht
  | replaced it new value s' hvisible hdec halloc heff =>
    have hnew := ((doItemAlloc_eq_some halloc).1.writeData 0 (itoaU64 3 value)).writeData (itoaU64 3 value).length crlf
    exact .of_stored ⟨rfl, .inl ⟨trivial, rfl⟩⟩ heff (storedItem_cas hnew.hasCas_eq) (.inl rfl) rfl
      fun u hu => ⟨hu.2, trivial⟩

theorem mget_spec (hs : s.Sound cfg) (m : Memory) (key : Bytes) (flags : List MetaFlag) (async : Bool)
    (hlimit : BelowLimit cfg s key flags) :
    StepSpec cfg s (.mget m key flags async) (s.execEvent cfg (.mget m key flags async)) := by
  have hcases := processMget_cases hs m key flags async hlimit
  simp only [execEvent]
  generalize s.processMget cfg m key flags async = got at hcases
  cases hcases with
  | miss s' v hkept heff =>
    refine .of_looked hkept heff rfl ?_ (by simp [StoreReply.ReportsCas])
    rintro k ⟨-, ⟨hw, -⟩ | ⟨-, -, hreply⟩⟩
    · exact hw
    · exact hreply rfl
  | hit it x it' s' hvisible hshown hkept hexp heff =>
    refine .of_kept rfl (find_of_visible hvisible) heff hkept rfl ?_ (reported_looped hshown hkept)
    rintro k ⟨hk, ⟨hw, -⟩ | ⟨-, hnone, -⟩⟩
    · exact hw
    · obtain rfl : key = k := Option.some.inj hk
      cases hnone.symm.trans hvisible
  | created x it' s' hvisible hflags hcas htime hshown hkept hexp heff =>
    have htime' : it'.time = s.currentTime := by
      rcases hkept.time_eq with ht | ht
      · exact ht.trans htime
      · exact ht
    exact .of_stored ⟨rfl, .inr ⟨hflags, hvisible, by simp⟩⟩ heff (hkept.cas_eq.trans hcas) (.inl htime') rfl
      (reported_looped hshown hkept)

theorem delete_spec (hs : s.Sound cfg) (key : Bytes) (cas : ℕ) (stale : Bool) (ttl : Option ℤ) :
    StepSpec cfg s (.delete key cas stale ttl) (s.execEvent cfg (.delete key cas stale ttl)) := by
  have hcases := processDelete_cases hs key cas stale ttl
  simp only [execEvent]
  generalize s.processDelete cfg key cas stale ttl = got at hcases
  cases hcases with
  | miss s' hvisible heff =>
    refine .of_silent heff (.inl rfl) rfl (.missed hvisible heff.find_self) ?_ fun _ h => h
    rintro k ⟨-, ⟨-, hdone⟩ | ⟨hv, -⟩⟩
    · cases (show DeleteResult.notFound = .deleted from hdone)
    · exact hv
  | refused it it' s' hvisible hacc heff =>
    refine .of_kept rfl (find_of_visible hvisible) heff (.of_accessed hacc) rfl ?_ fun _ h => h.elim
    rintro k ⟨-, ⟨-, hdone⟩ | ⟨hv, -⟩⟩
    · cases (show DeleteResult.exists = .deleted from hdone)
    · exact hv
  | staled it it' s' hvisible hstale hcas htime hexp hsize heff =>
    exact .of_stored ⟨rfl, .inl ⟨hstale, rfl⟩⟩ heff hcas (.inr ⟨it, hvisible, htime⟩) rfl fun _ h => h.elim
  | gone it s' hvisible hstale heff =>
    refine .of_silent heff (.inl rfl) rfl (.deleted hstale rfl rfl heff.find_self)
      (not_stores ⟨?_, id⟩) fun _ h => h
    intro hw
    cases hstale.symm.trans hw

theorem flushAll_spec (hs : s.Sound cfg) (exptime : ℤ) :
    StepSpec cfg s (.flush exptime) (.done, s.flushAll cfg exptime) := by
  have hspec : ∀ live, MarksSet cfg s (s.flushAll cfg exptime) live →
      StepSpec cfg s (.flush exptime) (.done, s.flushAll cfg exptime) := by
    intro live h
    refine .of_find hs ⟨id, id⟩ (h.table_eq ▸ hs.good) h.find_eq ?_ h.currentTime_eq fun hno =>
      (hno exptime rfl).elim
    rw [h.casId_eq]
    split
    · exact .inr rfl
    · exact .inl rfl
  cases hcas : cfg.useCas with
  | true => exact hspec _ (flushAll_marks hcas exptime)
  | false => exact hspec _ (flushAll_marks_plain hcas exptime)

/-- Something behind the back of the commands, at the item of a key if there is one. -/
theorem StepSpec.atItem {e : StoreEvent} (hs : s.Sound cfg) (key : Bytes) (f : StrItem → ItemStore)
    (hidle : ¬e.Writes ∧ ¬e.Vivifies) (hticks : e.ticks = 0)
    (hf : ∀ it, s.assocFind cfg key = some it → StepSpec cfg s e (.done, f it)) :
    StepSpec cfg s e (.done, s.atItem cfg key f) := by
  unfold ItemStore.atItem
  cases hfind : s.assocFind cfg key with
  | none => exact .refl hs hidle hticks
  | some it => exact hf it hfind

theorem effect_unlink (hs : s.Sound cfg) (hfind : s.assocFind cfg key = some it) :
    Effect cfg s (s.doItemUnlink cfg it).2 key none s.casId := by
  have h := (effect_doItemUnlink hs (hs.linked key it hfind).linked).1
  rwa [Sound.key_eq hfind] at h

theorem pageMove_moves (hs : s.Sound cfg) (hfind : s.assocFind cfg key = some it) (hrefs : it.refcount = 1)
    (hlive : s.isReclaimable it = false) :
    ∃ it', Effect cfg s (s.pageMove cfg key true) key (some it') (nextId cfg s.casId) ∧
      NewItem cfg s (s.pageMove cfg key true) key it' := by
  have hlinked := hs.linked key it hfind
  have hunlink := effect_unlink hs hfind
  have hkey : it.itemKey = key := Sound.key_eq hfind
  obtain ⟨-, hlink⟩ := @effect_doItemLink _ _ hunlink.sound { it with linked := false, refcount := 0 }
    (hkey.symm ▸ hunlink.find_self) hlinked.hasCas hlinked.two_le
  rw [hunlink.casId_eq, hunlink.currentTime_eq,
    show StrItem.itemKey { it with linked := false, refcount := 0 } = key from hkey] at hlink
  have hmove : s.pageMove cfg key true = (s.doItemReplace cfg it { it with linked := false, refcount := 0 }).2.2 := by
    simp [ItemStore.pageMove, hfind, hrefs, hlive]
  rw [hmove]
  have heff := hunlink.trans hlink
  exact ⟨_, heff, heff.find_self, itemGetCas_nextCas hlinked.hasCas _, heff.casId_eq, .inl rfl⟩

theorem pageMove_spec (hs : s.Sound cfg) (key : Bytes) (room : Bool) :
    StepSpec cfg s (.pageMove key room) (.done, s.pageMove cfg key room) := by
  refine StepSpec.atItem hs key _ ⟨id, id⟩ rfl fun it hfind => ?_
  split
  · rename_i hrefs
    split
    · rename_i hbad
      have heff := effect_unlink hs hfind
      refine .of_silent heff (.inl rfl) rfl ?_ (not_stores ⟨id, id⟩) fun _ h => h
      rcases hbad with hdead | hroom
      · exact .reclaimed it hfind hdead heff.find_self
      · exact .evicted ⟨rfl, hroom⟩ heff.find_self
    · rename_i hgood
      rw [not_or] at hgood
      have hlive : s.isReclaimable it = false := Bool.eq_false_iff.mpr hgood.1
      obtain rfl : room = true := by simpa using hgood.2
      obtain ⟨it', heff, hnew⟩ := pageMove_moves hs hfind hrefs hlive
      have hmove : s.pageMove cfg key true =
        (s.doItemReplace cfg it { it with linked := false, refcount := 0 }).2.2 := by
        simp [ItemStore.pageMove, hfind, hrefs, hlive]
      rw [← hmove]
      exact .of_silent heff (.inr rfl) rfl (.relinked it it' rfl hfind hrefs hlive hnew)
        (not_stores ⟨id, id⟩) fun _ h => h
  · exact .refl hs ⟨id, id⟩ rfl

/-- **Everything an event can do.** -/
theorem execEvent_spec (hs : s.Sound cfg) {e : StoreEvent} (hproper : e.Proper cfg s) :
    StepSpec cfg s e (s.execEvent cfg e) := by
  cases e with
  | store m setStale comm it => exact store_spec hs m setStale comm hproper
  | get key doUpdate async => exact read_spec (getItem_cases hs key doUpdate async) rfl ⟨id, id⟩ rfl
  | touch key exptime async => exact read_spec (touchItem_cases hs key exptime async) rfl ⟨id, id⟩ rfl
  | arith m key incr delta cas => exact arith_spec hs m key incr delta cas
  | mget m key flags async => exact mget_spec hs m key flags async hproper
  | delete key cas stale ttl => exact delete_spec hs key cas stale ttl
  | flush exptime => exact flushAll_spec hs exptime
  | hold key n =>
    refine .atItem hs key _ ⟨id, id⟩ rfl fun it hfind => ?_
    have hheld : Accessed s.currentTime it { it with refcount := it.refcount + n } :=
      .mk _ _ _ _ _ (.inl rfl) (Nat.le_add_right _ _)
    exact .of_accessed ⟨id, id⟩ hfind (effect_access hs hfind hheld) (.of_accessed hheld) rfl
  | release key =>
    refine .atItem hs key _ ⟨id, id⟩ rfl fun it hfind => ?_
    split
    · exact .of_accessed ⟨id, id⟩ hfind (effect_drop hs hfind ‹_›) (resembles_drop _ _) rfl
    · exact .refl hs ⟨id, id⟩ rfl
  | tick n => exact .of_find hs ⟨id, id⟩ hs.good rfl (.inl rfl) rfl fun _ => ⟨rfl, rfl⟩
  | bump key =>
    refine .atItem hs key _ ⟨id, id⟩ rfl fun it hfind => ?_
    split
    · rename_i hrefs
      obtain ⟨hacc, hupdate⟩ := doItemUpdate_spec hs hfind
      have hdrop := effect_drop hupdate.sound hupdate.find_self (hrefs.trans hacc.refcount_le)
      rw [hupdate.casId_eq] at hdrop
      exact .of_accessed ⟨id, id⟩ hfind (hupdate.trans hdrop)
        ((Resembles.of_accessed hacc).trans (resembles_drop _ _)) rfl
    · exact .refl hs ⟨id, id⟩ rfl
  | juggle key lruid active =>
    refine .atItem hs key _ ⟨id, id⟩ rfl fun it hfind => ?_
    have hacc : Accessed s.currentTime it { it with lruid := lruid, active := active } :=
      .mk _ _ _ _ _ (.inl rfl) le_rfl
    exact .of_accessed ⟨id, id⟩ hfind (effect_access hs hfind hacc) (.of_accessed hacc) rfl
  | reclaim key =>
    refine .atItem hs key _ ⟨id, id⟩ rfl fun it hfind => ?_
    split
    · have heff := effect_unlink hs hfind
      exact .of_silent heff (.inl rfl) rfl (.reclaimed it hfind ‹_› heff.find_self)
        (not_stores ⟨id, id⟩) fun _ h => h
    · exact .refl hs ⟨id, id⟩ rfl
  | evict key =>
    refine .atItem hs key _ ⟨id, id⟩ rfl fun it hfind => ?_
    have heff := effect_unlink hs hfind
    exact .of_silent heff (.inl rfl) rfl (.evicted rfl heff.find_self) (not_stores ⟨id, id⟩) fun _ h => h
  | evictBehind key =>
    have hsame : s.evictBehind cfg key = s := by
      rw [ItemStore.evictBehind, show (s.assocDelete cfg key).assocFind cfg key = none from ?_]
      exact (hs.good.find_delete key key).trans (if_pos rfl)
    show StepSpec cfg s _ (.done, s.evictBehind cfg key)
    rw [hsame]
    exact .refl hs ⟨id, id⟩ rfl
  | pageMove key room => exact pageMove_spec hs key room
  | expand =>
    simp only [execEvent]
    split
    · exact .refl hs ⟨id, id⟩ rfl
    · rename_i hexp
      have hexp' : s.table.expanding = false := by simpa using hexp
      exact .of_find hs ⟨id, id⟩ (hs.good.expand hexp') (funext fun k => ChainTable.find_expand hexp' k)
        (.inl rfl) rfl fun _ => ⟨rfl, rfl⟩
  | moveBucket =>
    simp only [execEvent]
    split
    · rename_i hexp
      exact .of_find hs ⟨id, id⟩ (hs.good.moveBucket hexp) (funext fun k => hs.good.find_moveBucket hexp k)
        (.inl rfl) rfl fun _ => ⟨rfl, rfl⟩
    · exact .refl hs ⟨id, id⟩ rfl
  | drawId =>
    have heff := effect_newCas hs []
    exact .of_silent heff (.inr rfl) rfl (.unchanged heff.find_self) (not_stores ⟨id, id⟩) fun _ h => h

/-! ### Runs -/

def after (cfg : Settings) (s : ItemStore) (e : StoreEvent) : ItemStore := (s.execEvent cfg e).2

def reply (cfg : Settings) (s : ItemStore) (e : StoreEvent) : StoreReply := (s.execEvent cfg e).1

def behind (cfg : Settings) (power now : ℕ) (es : List StoreEvent) : ItemStore :=
  Trace.run (after cfg) (start power 0 now) es

theorem smallItem_length (value : Bytes) (cas : ℕ) :
    (leBytes 8 cas ++ [97, 0] ++ value ++ crlf).length
      = casSize true + (1 + 1) + flagsSize false + (value.length + 2) := by
  simp only [List.length_append, leBytes_length, List.length_cons, List.length_nil, crlf, flagsSize, casSize]
  simp
  omega

/-- A small item of the key `"a"`, with its CAS value. -/
def smallItem (value : Bytes) (exptime cas : ℕ) : StrItem where
  time := 0
  exptime := exptime
  nbytes := value.length + 2
  refcount := 1
  nkey := 1
  lruid := .hot
  linked := false
  hasCas := true
  cflags := false
  fetched := false
  active := false
  tokenSent := false
  stale := false
  chunks := none
  data := leBytes 8 cas ++ [97, 0] ++ value ++ crlf
  data_length := smallItem_length value cas

theorem brought_smallItem (value : Bytes) (exptime cas : ℕ) :
    Brought smallChunks (smallItem value exptime cas) :=
  ⟨rfl, Nat.le_add_left 2 _, rfl, rfl⟩

end ItemStore

end BmcCache
