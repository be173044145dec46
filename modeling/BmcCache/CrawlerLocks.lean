import BmcCache.LockTrace
import BmcCache.LruRuns
import BmcCache.NumberParsing
import BmcCache.Trace

/-!
# The locks of the crawler

A request to crawl starts crawlers under the lock of the crawler thread, which then goes from list to list, one item
at a time, under the locks of the lists. `lru_crawler_class_done` releases the lock of a list for its caller.

* `lruCrawlerStart`, `lruCrawlerCrawl` — a request, with what it does to locks;
* `visit` — one round of the loop of `item_crawler_thread`; `visit_lru` says that it is `crawlStep`, or
  `lruCrawlerClassDone` when the client is gone;
* `CrawlerEvent`, `crawlerStep` — requests, the crawler thread, and what other threads do to the lists meanwhile;
* `crawler_locks_iff` — the runs in which nothing is released or modified without its lock.
-/

namespace BmcCache

open LockTrace LruState List

/-! ### The functions -/

/-- `lru_crawler_lock`, `lru_locks`, the item locks, the lock of the statistics, and that of `crawler_expired_data`. -/
inductive CrawlerLock where
  | crawler
  | lru (id : UInt8)
  | item (hv : ℕ)
  | stats
  | data
  deriving DecidableEq, Repr

/-- `enum crawler_run_type` -/
inductive CrawlerRunType where
  | autoexpire
  | expired
  | metadump
  deriving DecidableEq, Repr

def CrawlerRunType.needsClient : CrawlerRunType → Bool
  | .metadump => true
  | _ => false

/-- Where the crawler thread is: in `pthread_cond_wait`, in its loops, or in `usleep`. -/
inductive CrawlerMode where
  | waiting
  | running
  | paused
  deriving DecidableEq, Repr

/-- The lists, the crawler thread with the locks it holds, and the variables of `crawler.c`. `mod` stands for the
module of its type. -/
structure CrawlerSystem where
  lru : LruState
  mode : CrawlerMode
  held : List CrawlerLock
  doRun : Bool
  count : ℤ
  isRunning : Bool
  mod : Option CrawlerRunType
  activeType : CrawlerRunType
  client : Option ℕ
  blockAeUntil : UInt32

/-- The arguments of a request; no client is `c == NULL || sfd == 0`. -/
structure CrawlRequest where
  type : CrawlerRunType
  remaining : UInt32
  client : Option ℕ
  bipbuf : Bool
  currentTime : UInt32

/-- `mod->init`, `mod->doneclass` and `mod->finalize` of `crawler_expired_mod` take the lock of its data. -/
def dataLocks : CrawlerRunType → List (Act CrawlerLock)
  | .metadump => []
  | _ => [.acquire .data, .release .data]

/-- `do_lru_crawler_start`, in the loop over the lists -/
def startClass (remaining : UInt32) (x : ℤ × CrawlerSystem × List (Act CrawlerLock)) (sid : UInt8) :
    ℤ × CrawlerSystem × List (Act CrawlerLock) :=
  let (starts, s, locks) := x
  if (s.lru.hdr (crawlerAt sid)).flags = .zero then
    (starts + 1,
      { s with lru := s.lru.doLruCrawlerStart sid remaining, count := s.count + 1, isRunning := true },
      locks ++ [.acquire (.lru sid), .access (.lru sid), .release (.lru sid), .acquire .stats, .release .stats])
  else (starts, s, locks ++ [.acquire (.lru sid), .release (.lru sid)])

/-- `POWER_SMALLEST` to `POWER_LARGEST - 1` -/
def crawlIds : Bytes := (range 255).map fun n => UInt8.ofNat (n + 1)

/-- The module is configured: whether that succeeds, and `lru_crawler_set_client`. -/
def configure (req : CrawlRequest) (s : CrawlerSystem) : Bool × CrawlerSystem :=
  let s := { s with mod := some req.type, activeType := req.type }
  if req.type.needsClient then
    match req.client, s.client with
    | none, _ => (false, s)
    | some _, some _ => (false, s)
    | some c, none => (req.bipbuf, { s with client := some c })
  else (true, s)

/-- `lru_crawler_start`: what it returns, and what it does to locks. -/
def lruCrawlerStart (ids : UInt8 → Bool) (req : CrawlRequest) (s : CrawlerSystem) :
    ℤ × CrawlerSystem × List (Act CrawlerLock) :=
  let enter : List (Act CrawlerLock) := [.acquire .crawler, .acquire .stats, .release .stats]
  if s.doRun = false then (-2, s, enter ++ [.release .crawler])
  else if s.isRunning = true ∧ ¬ (req.type = .autoexpire ∧ s.activeType = .autoexpire) then
    (-1, { s with blockAeUntil := req.currentTime + 60 }, enter ++ [.release .crawler])
  else if req.type = .autoexpire ∧ req.currentTime < s.blockAeUntil then (-1, s, enter ++ [.release .crawler])
  else
    let (ok, s, init) := if s.isRunning then (true, s, [])
      else ((configure req s).1, (configure req s).2, dataLocks req.type)
    if ok = false then (-2, s, enter ++ (init ++ [.release .crawler]))
    else
      let (starts, s, kicks) := (crawlIds.filter ids).foldl (startClass req.remaining) (0, s, [])
      (starts, s, enter ++ (init ++ (kicks ++ [.release .crawler])))

/-- `enum crawler_result_type` -/
inductive CrawlerResult where
  | ok
  | running
  | badclass
  | notstarted
  | error
  deriving DecidableEq, Repr

/-- What `strtok_r` finds between commas. -/
def classTokens (slabs : Bytes) : List Bytes := (slabs.splitOn 44).filter (· ≠ [])

/-- `tocrawl`, unless a class is bad -/
def tocrawl : List Bytes → (UInt8 → Bool) → Option (UInt8 → Bool)
  | [], ids => some ids
  | p :: ps, ids =>
    match safeStrtoul p with
    | none => none
    | some sid =>
      if sid < 1 ∨ 64 ≤ sid then none
      else tocrawl ps fun id => ids id || [LruId.temp, .hot, .warm, .cold].any fun lru =>
        id == UInt8.ofNat sid ||| lruBits lru

/-- `tocrawl` of a request -/
def crawlClasses (slabs : Bytes) : Option (UInt8 → Bool) :=
  if slabs = token ['a', 'l', 'l'] then some fun _ => true else tocrawl (classTokens slabs) fun _ => false

def lruCrawlerCrawl (slabs : Bytes) (req : CrawlRequest) (s : CrawlerSystem) :
    CrawlerResult × CrawlerSystem × List (Act CrawlerLock) :=
  match crawlClasses slabs with
  | none => (.badclass, s, [.release .crawler])
  | some ids =>
    let (starts, s, locks) := lruCrawlerStart ids req s
    (if starts = -1 then .running else if starts = -2 then .error else if starts ≠ 0 then .ok
      else .notstarted, s, locks)

/-- What a visit to a list depends on: whether `lru_crawler_client_getbuf` gets space for the client, whether the
client is closed if not, the item locks, and whether the thread sleeps or lets go of its lock afterwards. -/
structure Visit where
  cfg : LruSettings
  getbuf : Bool
  closes : Bool
  trylock : ℕ → Bool
  yields : Bool

/-- `lru_crawler_class_done` -/
def classDone (i : UInt8) (s : CrawlerSystem) : CrawlerSystem × List (Act CrawlerLock) :=
  ({ s with lru := s.lru.lruCrawlerClassDone i, count := s.count - 1 },
    .access (.lru (s.lru.q.slabsClsid (crawlerAt i))) :: .release (.lru i) :: (s.mod.map dataLocks).getD [])

/-- `item_crawler_thread` when the lock of an item has been acquired and a reference taken. `do_item_unlink_nolock`
takes the item out of the list of its id. -/
def evaluate (hash : Bytes → ℕ) (fuel : ℕ) (i : UInt8) (v : Visit) (search : ℕ) (s : CrawlerSystem)
    (lru : LruState) :
    Option (CrawlerSystem × List (Act CrawlerLock)) :=
  let hv := hash (lru.assoc.key search)
  let metadump := decide (s.mod = some .metadump)
  let mode := if v.yields then CrawlerMode.paused else s.mode
  let pause : List (Act CrawlerLock) := if v.yields then [.release .crawler] else []
  match lru.crawlerEval v.cfg metadump fuel search hv with
  | none => none
  | some lru' =>
    some ({ s with lru := lru', mode := mode },
      (if metadump then [.release (.lru i), .release (.item hv)]
      else .acquire .data ::
        ((if expired v.cfg (lru.hdr search) then [.access (.lru (lru.q.slabsClsid search))] else []) ++
          [.release .data, .release (.item hv), .release (.lru i)])) ++ pause)

/-- `item_crawler_thread` with the lock of the list -/
def crawlLocked (hash : Bytes → ℕ) (fuel : ℕ) (i : UInt8) (v : Visit) (s : CrawlerSystem) :
    Option (CrawlerSystem × List (Act CrawlerLock)) :=
  let (search, q) := s.lru.q.doItemCrawlQ (crawlerAt i)
  let lru := { s.lru with q := q }
  let locked (r : CrawlerSystem × List (Act CrawlerLock)) : CrawlerSystem × List (Act CrawlerLock) :=
    (r.1, .acquire (.lru i) :: .access (.lru (s.lru.q.slabsClsid (crawlerAt i))) :: r.2)
  match search with
  | none => some (locked (classDone i { s with lru := lru }))
  | some search =>
    let (last, lru) := lru.countDown i
    if last then some (locked (classDone i { s with lru := lru }))
    else
      let hv := hash (lru.assoc.key search)
      if v.trylock hv then
        let lru := lru.refcountIncr search
        if (lru.hdr search).refcount ≠ 2 then
          some (locked ({ s with lru := lru.refcountDecr search },
            [.acquire (.item hv), .release (.item hv), .release (.lru i)]))
        else (evaluate hash fuel i v search s lru).map fun r => locked (r.1, .acquire (.item hv) :: r.2)
      else some (locked ({ s with lru := lru }, [.release (.lru i)]))

/-- One round of the loop of `item_crawler_thread` -/
def visit (hash : Bytes → ℕ) (fuel : ℕ) (i : UInt8) (v : Visit) (s : CrawlerSystem) :
    Option (CrawlerSystem × List (Act CrawlerLock)) :=
  if (s.lru.hdr (crawlerAt i)).flags ≠ .one then some (s, [])
  else
    match s.client with
    | some c =>
      -- get memory from bipbuf, if client has no space, flush
      if v.getbuf then crawlLocked hash fuel i v s
      else some (classDone i { s with client := if v.closes then none else some c })
    | none =>
      if (s.mod.map CrawlerRunType.needsClient).getD false then some (classDone i s) else crawlLocked hash fuel i v s

/-! ### Runs -/

inductive CrawlerEvent where
  /-- a worker, for `lru_crawler crawl` and `lru_crawler metadump` -/
  | crawl (slabs : Bytes) (req : CrawlRequest)
  /-- the thread that maintains the lists -/
  | start (ids : UInt8 → Bool) (req : CrawlRequest)
  /-- the crawler thread leaves `pthread_cond_wait` -/
  | wake
  | visit (i : UInt8) (v : Visit)
  /-- the crawler thread has slept -/
  | resume
  /-- no crawler is left, and the crawler thread waits again -/
  | finish
  /-- another thread works on items -/
  | other (cfg : LruSettings) (e : LruEvent)

def LruEvent.isOther : LruEvent → Bool
  | .crawlerStart _ _ | .crawl _ _ _ | .crawlerDone _ => false
  | _ => true

/-- The crawler thread behind its loops: `finalize` and the client, which is released or has been closed -/
def crawlEnd (s : CrawlerSystem) : List (Act CrawlerLock) :=
  (s.mod.map dataLocks).getD [] ++ [.acquire .stats, .release .stats, .release .crawler]

/-- One event.  It fails if a lock is released that the thread does not hold, if one is acquired twice, and if a list is
modified without its lock. -/
def crawlerStep (hash : Bytes → ℕ) (fuel : ℕ) (s : CrawlerSystem) : CrawlerEvent → Option CrawlerSystem
  | .crawl slabs req =>
    let (_, s', locks) := lruCrawlerCrawl slabs req s
    (LockTrace.run [] locks).map fun _ => s'
  | .start ids req =>
    let (_, s', locks) := lruCrawlerStart ids req s
    (LockTrace.run [] locks).map fun _ => s'
  | .wake | .resume =>
    (LockTrace.run s.held [.acquire .crawler]).map fun held => { s with mode := .running, held := held }
  | .visit i v =>
    match visit hash fuel i v s with
    | none => none
    | some (s', locks) => (LockTrace.run s.held locks).map fun held => { s' with held := held }
  | .finish =>
    (LockTrace.run s.held (crawlEnd s)).map fun held =>
      { s with mode := .waiting, held := held, mod := none, isRunning := false,
               client := if s.mod = none then s.client else none }
  | .other cfg e => (lruStep hash fuel s.lru (cfg, e)).map fun lru => { s with lru := lru }

/-- What can happen: the crawler thread is where the event begins; a request waits while the thread holds
`lru_crawler_lock`, unless it has a bad class; other threads do what `LruEvent.Allowed` says. -/
def CrawlerEvent.Possible (s : CrawlerSystem) : CrawlerEvent → Prop
  | .crawl slabs _ => s.mode = .running → crawlClasses slabs = none
  | .start _ _ => s.mode ≠ .running
  | .wake => s.mode = .waiting
  | .visit _ _ => s.mode = .running
  | .resume => s.mode = .paused
  | .finish => s.mode = .running ∧ s.count = 0
  | .other cfg e => e.isOther = true ∧ LruEvent.Allowed s.lru (cfg, e)

/-- A class of `lru_crawler crawl` -/
def GoodClass (p : Bytes) : Prop := ∃ sid, safeStrtoul p = some sid ∧ 1 ≤ sid ∧ sid < 64

def Visit.ready (v : Visit) (s : CrawlerSystem) : Bool :=
  match s.client with
  | some _ => v.getbuf
  | none => !(s.mod.map CrawlerRunType.needsClient).getD false

/-- **What the code relies on**: a request names classes, and a list whose crawler runs is visited with its client
there. -/
def CrawlerEvent.Fine (s : CrawlerSystem) : CrawlerEvent → Prop
  | .crawl slabs _ => slabs = token ['a', 'l', 'l'] ∨ ∀ p ∈ classTokens slabs, GoodClass p
  | .visit i v => (s.lru.hdr (crawlerAt i)).flags = .one → v.ready s = true
  | _ => True

def CrawlerSystem.init (power : ℕ) (doRun : Bool) : CrawlerSystem where
  lru := LruState.init power
  mode := .waiting
  held := []
  doRun := doRun
  count := 0
  isRunning := false
  mod := none
  activeType := .autoexpire
  client := none
  blockAeUntil := 0

/-! ### Requests -/

/-- `lru_crawler_lock` is held while the crawler thread runs. -/
def CrawlerMode.locks : CrawlerMode → List CrawlerLock
  | .running => [.crawler]
  | _ => []

theorem tocrawl_isSome (ps : List Bytes) (ids : UInt8 → Bool) :
    (tocrawl ps ids).isSome ↔ ∀ p ∈ ps, GoodClass p := by
  induction ps generalizing ids with
  | nil => simp [tocrawl]
  | cons p ps ih =>
    rw [forall_mem_cons, tocrawl]
    cases hp : safeStrtoul p with
    | none => simp [GoodClass, hp]
    | some sid =>
      have hgood : GoodClass p ↔ ¬ (sid < 1 ∨ 64 ≤ sid) := by
        simp only [GoodClass, hp, Option.some.injEq, exists_eq_left']
        omega
      rw [hgood]
      dsimp only
      split
      · rename_i hbad
        exact ⟨fun h => absurd h Bool.false_ne_true, fun h => absurd hbad h.1⟩
      · rename_i hok
        rw [ih]
        exact (and_iff_right hok).symm

theorem crawlClasses_isSome (slabs : Bytes) :
    (crawlClasses slabs).isSome ↔ slabs = token ['a', 'l', 'l'] ∨ ∀ p ∈ classTokens slabs, GoodClass p := by
  unfold crawlClasses
  split
  · rename_i hall
    simp [hall]
  · rename_i hne
    rw [tocrawl_isSome, or_iff_right hne]

theorem run_dataLocks (held : List CrawlerLock) (hdata : CrawlerLock.data ∉ held) (type : CrawlerRunType) :
    LockTrace.run held (dataLocks type) = some held := by
  have hbody : LockTrace.run (CrawlerLock.data :: held) [] = some (.data :: held) := rfl
  cases type with
  | metadump => rfl
  | autoexpire => exact run_section hdata hbody
  | expired => exact run_section hdata hbody

section Requests

variable {hash : Bytes → ℕ} {lists : UInt8 → List ℕ} {linked : Finset ℕ}

/-- What a request keeps: the items, and where the crawler thread is. -/
structure Requested (hash : Bytes → ℕ) (linked : Finset ℕ) (s s' : CrawlerSystem) : Prop where
  inv : ∃ lists, Inv hash s'.lru lists linked none
  mode : s'.mode = s.mode
  held : s'.held = s.held

/-- **The loop over the lists**, by induction on them -/
theorem startClasses_spec (remaining : UInt32) (sids : Bytes) {s₀ : CrawlerSystem}
    (x : ℤ × CrawlerSystem × List (Act CrawlerLock)) (hx : Requested hash linked s₀ x.2.1)
    (hlocks : LockTrace.run [.crawler] x.2.2 = some [.crawler]) :
    Requested hash linked s₀ (sids.foldl (startClass remaining) x).2.1 ∧
      LockTrace.run [.crawler] (sids.foldl (startClass remaining) x).2.2 = some [.crawler] := by
  induction sids generalizing x with
  | nil => exact ⟨hx, hlocks⟩
  | cons sid sids ih =>
    rw [foldl_cons]
    obtain ⟨starts, s, locks⟩ := x
    obtain ⟨lists, hinv⟩ := hx.inv
    refine ih _ ?_ ?_
    · rw [startClass]
      split
      · exact ⟨hinv.doLruCrawlerStart sid remaining, hx.mode, hx.held⟩
      · exact ⟨⟨lists, hinv⟩, hx.mode, hx.held⟩
    · rw [startClass]
      split
      · rw [run_append hlocks, run_acquire (by simp), run_access (by simp), run_release_head, run_acquire (by simp),
          run_release_head, LockTrace.run_nil]
      · rw [run_append hlocks, run_acquire (by simp), run_release_head, LockTrace.run_nil]

theorem configure_requested (req : CrawlRequest) {s : CrawlerSystem} (h : Inv hash s.lru lists linked none) :
    Requested hash linked s (configure req s).2 := by
  unfold configure
  dsimp only
  split
  · split <;> exact ⟨⟨lists, h⟩, rfl, rfl⟩
  · exact ⟨⟨lists, h⟩, rfl, rfl⟩

/-- **`lru_crawler_start`** releases what it acquires. -/
theorem lruCrawlerStart_spec (ids : UInt8 → Bool) (req : CrawlRequest) {s : CrawlerSystem}
    (h : Inv hash s.lru lists linked none) :
    Requested hash linked s (lruCrawlerStart ids req s).2.1 ∧
      LockTrace.run [] (lruCrawlerStart ids req s).2.2 = some [] := by
  have henter : LockTrace.run [] [.acquire .crawler, .acquire .stats, .release .stats] =
    some [CrawlerLock.crawler] := rfl
  have hleave : LockTrace.run [CrawlerLock.crawler] [.release .crawler] = some [] := rfl
  have hsame : Requested hash linked s s := ⟨⟨lists, h⟩, rfl, rfl⟩
  unfold lruCrawlerStart
  dsimp only
  split
  · exact ⟨hsame, rfl⟩
  · split
    · exact ⟨⟨⟨lists, h⟩, rfl, rfl⟩, rfl⟩
    · split
      · exact ⟨hsame, rfl⟩
      · -- the module is there already, or is configured
        generalize hconf : (if s.isRunning = true then (true, s, []) else
          ((configure req s).1, (configure req s).2, dataLocks req.type)) = conf
        obtain ⟨ok, s₁, init⟩ := conf
        have hmod : Requested hash linked s s₁ ∧ LockTrace.run [.crawler] init = some [.crawler] := by
          split at hconf
          · cases hconf
            exact ⟨hsame, rfl⟩
          · cases hconf
            exact ⟨configure_requested req h, run_dataLocks _ (by simp) req.type⟩
        dsimp only
        split
        · refine ⟨hmod.1, ?_⟩
          rw [run_append henter, run_append hmod.2, hleave]
        · obtain ⟨hstarts, hkicks⟩ := startClasses_spec req.remaining (crawlIds.filter ids)
            (0, s₁, []) hmod.1 rfl
          refine ⟨hstarts, ?_⟩
          rw [run_append henter, run_append hmod.2, run_append hkicks, hleave]

end Requests

/-! ### Visits -/

section Visits

variable {hash : Bytes → ℕ} {fuel : ℕ} {i : UInt8} {v : Visit} {s s' : CrawlerSystem}
  {lists : UInt8 → List ℕ} {linked : Finset ℕ} {locks : List (Act CrawlerLock)} {search : ℕ} {lru : LruState}

theorem evaluate_lru (hash : Bytes → ℕ) (fuel : ℕ) (i : UInt8) (v : Visit) (search : ℕ) (s : CrawlerSystem)
    (lru : LruState) :
    (evaluate hash fuel i v search s lru).map (fun r => r.1.lru) =
      lru.crawlerEval v.cfg (decide (s.mod = some .metadump)) fuel search (hash (lru.assoc.key search)) := by
  unfold evaluate
  dsimp only
  cases lru.crawlerEval v.cfg (decide (s.mod = some .metadump)) fuel search (hash (lru.assoc.key search)) with
  | none => rfl
  | some lru' => rfl

theorem crawlLocked_lru (hone : (s.lru.hdr (crawlerAt i)).flags = .one) :
    (crawlLocked hash fuel i v s).map (fun r => r.1.lru) =
      s.lru.crawlStep hash v.cfg fuel i (decide (s.mod = some .metadump)) v.trylock := by
  unfold crawlLocked LruState.crawlStep
  rw [if_neg (not_not.mpr hone)]
  obtain ⟨search, q⟩ := s.lru.q.doItemCrawlQ (crawlerAt i)
  cases search with
  | none => rfl
  | some search =>
    unfold LruState.crawlItem
    dsimp only
    obtain ⟨last, lru⟩ := LruState.countDown i { s.lru with q := q }
    dsimp only
    split
    · rfl
    · split
      · split
        · rfl
        · rw [Option.map_map]
          exact evaluate_lru hash fuel i v search s _
      · rfl

/-- **A visit to a list** is a round of the crawler, or the crawler leaves because its client is gone. -/
theorem visit_lru (hash : Bytes → ℕ) (fuel : ℕ) (i : UInt8) (v : Visit) (s : CrawlerSystem) :
    (visit hash fuel i v s).map (fun r => r.1.lru) = lruStep hash fuel s.lru (v.cfg,
      if v.ready s then .crawl i (decide (s.mod = some .metadump)) v.trylock else .crawlerDone i) := by
  have hround : (s.lru.hdr (crawlerAt i)).flags = .one → (crawlLocked hash fuel i v s).map (fun r => r.1.lru) =
      lruStep hash fuel s.lru (v.cfg, .crawl i (decide (s.mod = some .metadump)) v.trylock) := crawlLocked_lru
  have hdone : (s.lru.hdr (crawlerAt i)).flags = .one →
      some (s.lru.lruCrawlerClassDone i) = lruStep hash fuel s.lru (v.cfg, .crawlerDone i) := by
    intro hone
    rw [lruStep, if_pos hone]
  unfold visit
  split
  · rename_i hflags
    split
    · rw [lruStep, LruState.crawlStep, if_pos hflags]
      rfl
    · rw [lruStep, if_neg hflags]
      rfl
  · rename_i hone
    rw [not_not] at hone
    unfold Visit.ready
    cases hclient : s.client with
    | none =>
      dsimp only
      cases (s.mod.map CrawlerRunType.needsClient).getD false with
      | true => exact hdone hone
      | false => exact hround hone
    | some c =>
      dsimp only
      cases v.getbuf with
      | true => exact hround hone
      | false => exact hdone hone

theorem crawler_clsid (h : Inv hash lru lists linked none) (hone : (lru.hdr (crawlerAt i)).flags = .one) :
    lru.q.slabsClsid (crawlerAt i) = i := by
  obtain ⟨l, r, hlist⟩ := h.crawler_place hone
  exact h.holds.clsid_eq hlist

theorem crawlQ_clsid (h : Inv hash lru lists linked none) (hone : (lru.hdr (crawlerAt i)).flags = .one)
    (hsearch : (lru.q.doItemCrawlQ (crawlerAt i)).1 = some search) : lru.q.slabsClsid search = i := by
  obtain ⟨l, r, hlist⟩ := h.crawler_place hone
  rcases eq_nil_or_concat l with rfl | ⟨l, before, rfl⟩
  · rw [(h.holds.crawlQ_head (not_isItem_crawlerAt i) hlist).1] at hsearch
    cases hsearch
  · rw [concat_eq_append, append_assoc, singleton_append] at hlist
    rw [(h.holds.crawlQ (not_isItem_crawlerAt i) hlist).1] at hsearch
    rw [← Option.some.inj hsearch]
    exact h.holds.clsid_eq hlist

theorem run_doneclass (held : List CrawlerLock) (hdata : CrawlerLock.data ∉ held) (mod : Option CrawlerRunType) :
    LockTrace.run held ((mod.map dataLocks).getD []) = some held := by
  cases mod with
  | none => rfl
  | some type => exact run_dataLocks held hdata type

/-- **`lru_crawler_class_done` with the lock of the list**, which it releases -/
theorem classDone_locks (hclsid : s.lru.q.slabsClsid (crawlerAt i) = i) :
    LockTrace.run [.lru i, .crawler] (classDone i s).2 = some [.crawler] := by
  rw [classDone, hclsid, run_access (by simp), run_release_head, run_doneclass _ (by simp)]

/-- **Without it**, it fails. -/
theorem classDone_unlocked (i : UInt8) (s : CrawlerSystem) : LockTrace.run [.crawler] (classDone i s).2 = none := by
  unfold classDone LockTrace.run
  rw [foldlM_cons, LockTrace.step, if_neg (by simp)]
  rfl

theorem evaluate_locks (hsearch : lru.q.slabsClsid search = i) (hmode : s.mode = .running)
    (h : evaluate hash fuel i v search s lru = some (s', locks)) :
    s'.held = s.held ∧
      LockTrace.run [.item (hash (lru.assoc.key search)), .lru i, .crawler] locks = some s'.mode.locks := by
  unfold evaluate at h
  dsimp only at h
  split at h
  · cases h
  · obtain ⟨rfl, rfl⟩ := Prod.mk.inj (Option.some.inj h)
    refine ⟨rfl, ?_⟩
    have hpause : LockTrace.run [.crawler] (if v.yields = true then [.release .crawler] else []) =
        some (if v.yields = true then CrawlerMode.paused else s.mode).locks := by
      rw [hmode]
      cases v.yields with
      | true => rfl
      | false => rfl
    -- the lock of the list is released in front of the item lock, or behind it
    by_cases hdump : s.mod = some .metadump
    · have hfree : LockTrace.run [CrawlerLock.item (hash (lru.assoc.key search)), .lru i, .crawler]
          [.release (.lru i), .release (.item (hash (lru.assoc.key search)))] = some [.crawler] := by
        rw [run_release (by simp), erase_cons_tail (by simp), erase_cons_head, run_release_head,
          LockTrace.run_nil]
      rw [if_pos (decide_eq_true hdump), run_append hfree, hpause]
    · have hwork : LockTrace.run [CrawlerLock.data, .item (hash (lru.assoc.key search)), .lru i, .crawler]
          (if expired v.cfg (lru.hdr search) = true then [.access (.lru (lru.q.slabsClsid search))] else []) =
          some [.data, .item (hash (lru.assoc.key search)), .lru i, .crawler] := by
        split
        · rw [hsearch, run_access (by simp), LockTrace.run_nil]
        · rfl
      rw [if_neg (by simpa using hdump), cons_append, run_acquire (by simp), append_assoc, run_append hwork,
        cons_append, run_release_head, cons_append, run_release_head, cons_append, run_release_head,
        nil_append, hpause]

theorem countDown_q (i : UInt8) (lru : LruState) : (lru.countDown i).2.q = lru.q := by
  unfold LruState.countDown
  dsimp only
  split <;> rfl

/-- **With the client there**, a visit holds the locks it needs, and in the end none of a list. -/
theorem crawlLocked_locks (hinv : Inv hash s.lru lists linked none) (hone : (s.lru.hdr (crawlerAt i)).flags = .one)
    (hmode : s.mode = .running) (h : crawlLocked hash fuel i v s = some (s', locks)) :
    s'.held = s.held ∧ LockTrace.run [.crawler] locks = some s'.mode.locks := by
  have hclsid := crawler_clsid hinv hone
  have hfind : ∀ search, (s.lru.q.doItemCrawlQ (crawlerAt i)).1 = some search → s.lru.q.slabsClsid search = i :=
    fun _ => crawlQ_clsid hinv hone
  have hids : (s.lru.q.doItemCrawlQ (crawlerAt i)).2.slabsClsid = s.lru.q.slabsClsid := doItemCrawlQ_slabsClsid _ _
  have hrunning : s.mode.locks = [.crawler] := by rw [hmode]; rfl
  -- in every case the lock is acquired and the crawler swings
  have hlock : ∀ acts, LockTrace.run [CrawlerLock.crawler]
      (.acquire (.lru i) :: .access (.lru (s.lru.q.slabsClsid (crawlerAt i))) :: acts) =
        LockTrace.run [.lru i, .crawler] acts := by
    intro acts
    rw [run_acquire (by simp), hclsid, run_access (by simp)]
  unfold crawlLocked at h
  generalize s.lru.q.doItemCrawlQ (crawlerAt i) = r at h hfind hids
  obtain ⟨found, q⟩ := r
  dsimp only at h hfind hids
  cases found with
  | none =>
    obtain ⟨rfl, rfl⟩ := Prod.mk.inj (Option.some.inj h)
    refine ⟨rfl, ?_⟩
    rw [hlock, classDone_locks ((congrFun hids _).trans hclsid), ← hrunning]
    rfl
  | some search =>
    have hq := countDown_q i { s.lru with q := q }
    generalize LruState.countDown i { s.lru with q := q } = r at h hq
    obtain ⟨last, lru⟩ := r
    dsimp only at h hq
    split at h
    · obtain ⟨rfl, rfl⟩ := Prod.mk.inj (Option.some.inj h)
      refine ⟨rfl, ?_⟩
      rw [hlock, classDone_locks (by rw [hq]; exact (congrFun hids _).trans hclsid), ← hrunning]
      rfl
    · split at h
      · split at h
        · obtain ⟨rfl, rfl⟩ := Prod.mk.inj (Option.some.inj h)
          refine ⟨rfl, ?_⟩
          rw [hlock, run_acquire (by simp), run_release_head, run_release_head, LockTrace.run_nil, hrunning]
        · obtain ⟨r, hr, hlocked⟩ := Option.map_eq_some_iff.mp h
          obtain ⟨rfl, rfl⟩ := Prod.mk.inj hlocked
          have hsearch : (lru.refcountIncr search).q.slabsClsid search = i := by
            show lru.q.slabsClsid search = i
            rw [hq, hids, hfind search rfl]
          obtain ⟨hheld, hrun⟩ := evaluate_locks hsearch hmode hr
          exact ⟨hheld, by rw [hlock, run_acquire (by simp)]; exact hrun⟩
      · obtain ⟨rfl, rfl⟩ := Prod.mk.inj (Option.some.inj h)
        refine ⟨rfl, ?_⟩
        rw [hlock, run_release_head, LockTrace.run_nil, hrunning]

/-- **The locks of a visit** are in order iff the client is there. -/
theorem visit_locks (hinv : Inv hash s.lru lists linked none) (hmode : s.mode = .running)
    (h : visit hash fuel i v s = some (s', locks)) :
    (((s.lru.hdr (crawlerAt i)).flags = .one → v.ready s = true) →
        LockTrace.run [.crawler] locks = some s'.mode.locks) ∧
      (¬ ((s.lru.hdr (crawlerAt i)).flags = .one → v.ready s = true) → LockTrace.run [.crawler] locks = none) := by
  have hdone : ∀ s₁ : CrawlerSystem, some (classDone i s₁) = some (s', locks) →
    LockTrace.run [.crawler] locks = none := by
    intro s₁ h₁
    have hlocks := classDone_unlocked i s₁
    rwa [Option.some.inj h₁] at hlocks
  unfold visit at h
  split at h
  · rename_i hflags
    obtain ⟨rfl, rfl⟩ := Prod.mk.inj (Option.some.inj h)
    refine ⟨fun _ => ?_, fun hnot => absurd (fun hone => absurd hone hflags) hnot⟩
    rw [LockTrace.run_nil, hmode]
    rfl
  · rename_i hone
    rw [not_not] at hone
    have hround : crawlLocked hash fuel i v s = some (s', locks) →
        LockTrace.run [.crawler] locks = some s'.mode.locks := fun h => (crawlLocked_locks hinv hone hmode h).2
    rw [imp_iff_right hone]
    unfold Visit.ready
    cases hclient : s.client with
    | none =>
      rw [hclient] at h
      dsimp only at h ⊢
      cases hneeds : (s.mod.map CrawlerRunType.needsClient).getD false with
      | true =>
        rw [hneeds] at h
        exact ⟨(by intro hready; cases hready), fun _ => hdone _ h⟩
      | false =>
        rw [hneeds] at h
        exact ⟨fun _ => hround h, fun hnot => absurd rfl hnot⟩
    | some c =>
      rw [hclient] at h
      dsimp only at h ⊢
      cases hbuf : v.getbuf with
      | true =>
        rw [hbuf] at h
        exact ⟨fun _ => hround h, fun hnot => absurd rfl hnot⟩
      | false =>
        rw [hbuf] at h
        exact ⟨(by intro hready; cases hready), fun _ => hdone _ h⟩

end Visits

/-! ### All events -/

section Events

variable {hash : Bytes → ℕ} {fuel : ℕ} {s s' : CrawlerSystem} {e : CrawlerEvent}

/-- What holds with `n` events to go: the lists are in order, and the crawler thread holds `lru_crawler_lock` while
it runs, and nothing else. -/
def CrawlerSystem.Good (hash : Bytes → ℕ) (fuel n : ℕ) (s : CrawlerSystem) : Prop :=
  (∃ lists linked, Inv hash s.lru lists linked none ∧ linked.card + n + 6 ≤ fuel) ∧ s.held = s.mode.locks

theorem Requested.good {linked : Finset ℕ} {n : ℕ} (h : Requested hash linked s s')
    (hfuel : linked.card + (n + 1) + 6 ≤ fuel) (hheld : s.held = s.mode.locks) : s'.Good hash fuel n := by
  obtain ⟨lists', hinv⟩ := h.inv
  exact ⟨⟨lists', linked, hinv, by omega⟩, by rw [h.held, hheld, h.mode]⟩

/-- **One event**: it is in order iff it is fine, and then the invariant holds behind it. -/
theorem CrawlerSystem.Good.step {n : ℕ} (h : s.Good hash fuel (n + 1)) (hpossible : e.Possible s) :
    (e.Fine s → ∃ s', crawlerStep hash fuel s e = some s' ∧ s'.Good hash fuel n) ∧
      (¬ e.Fine s → crawlerStep hash fuel s e = none) := by
  obtain ⟨⟨lists, linked, hinv, hfuel⟩, hheld⟩ := h
  have hweak : ∃ lists linked, Inv hash s.lru lists linked none ∧ linked.card + n + 6 ≤ fuel :=
    ⟨lists, linked, hinv, by omega⟩
  have hcard : linked.card + 6 ≤ fuel := by omega
  cases e with
  | crawl slabs req =>
    rw [CrawlerEvent.Fine, ← crawlClasses_isSome, crawlerStep, lruCrawlerCrawl]
    cases crawlClasses slabs with
    | none => exact ⟨(by intro hsome; cases hsome), fun _ => rfl⟩
    | some ids =>
      obtain ⟨hreq, hlocks⟩ := lruCrawlerStart_spec ids req hinv
      refine ⟨fun _ => ⟨_, ?_, hreq.good hfuel hheld⟩, fun hnot => absurd rfl hnot⟩
      dsimp only
      rw [hlocks]
      rfl
  | start ids req =>
    obtain ⟨hreq, hlocks⟩ := lruCrawlerStart_spec ids req hinv
    refine ⟨fun _ => ⟨_, ?_, hreq.good hfuel hheld⟩, fun hnot => absurd trivial hnot⟩
    rw [crawlerStep]
    dsimp only
    rw [hlocks]
    rfl
  | wake =>
    have hmode : s.mode = .waiting := hpossible
    refine ⟨fun _ => ⟨{ s with mode := .running, held := [.crawler] }, ?_, hweak, rfl⟩, fun hnot =>
      absurd trivial hnot⟩
    rw [crawlerStep, hheld, hmode]
    rfl
  | visit i v =>
    have hmode : s.mode = .running := hpossible
    have hlocks : s.held = [.crawler] := by
      rw [hheld, hmode]
      rfl
    have hallowed : LruEvent.Allowed s.lru (v.cfg,
        if v.ready s then .crawl i (decide (s.mod = some .metadump)) v.trylock else .crawlerDone i) := by
      cases v.ready s <;> trivial
    obtain ⟨lru, lists', linked', hlru, hgrow, hinv'⟩ := hinv.step hcard hallowed
    rw [← visit_lru] at hlru
    obtain ⟨⟨s', locks⟩, hvisit, rfl⟩ := Option.map_eq_some_iff.mp hlru
    obtain ⟨hfine, hbad⟩ := visit_locks hinv hmode hvisit
    rw [crawlerStep, hvisit, hlocks]
    dsimp only
    constructor
    · intro hok
      rw [hfine hok]
      exact ⟨_, rfl, ⟨lists', linked', hinv', by omega⟩, rfl⟩
    · intro hnot
      rw [hbad hnot]
      rfl
  | resume =>
    have hmode : s.mode = .paused := hpossible
    refine ⟨fun _ => ⟨{ s with mode := .running, held := [.crawler] }, ?_, hweak, rfl⟩, fun hnot =>
      absurd trivial hnot⟩
    rw [crawlerStep, hheld, hmode]
    rfl
  | finish =>
    have hlocks : s.held = [.crawler] := by
      rw [hheld, hpossible.1]
      rfl
    refine ⟨fun _ => ⟨{ s with mode := .waiting, held := [], mod := none, isRunning := false,
                               client := if s.mod = none then s.client else none }, ?_, hweak, rfl⟩,
      fun hnot => absurd trivial hnot⟩
    rw [crawlerStep, hlocks, crawlEnd, run_append (run_doneclass _ (by simp) s.mod)]
    rfl
  | other cfg e =>
    obtain ⟨lru, lists', linked', hlru, hgrow, hinv'⟩ := hinv.step hcard hpossible.2
    refine ⟨fun _ => ⟨{ s with lru := lru }, ?_, ⟨lists', linked', hinv', by omega⟩, hheld⟩,
      fun hnot => absurd trivial hnot⟩
    rw [crawlerStep, hlru]
    rfl

end Events

/-- **The locks of the crawler.** In a run from the start of the server every lock is released by a thread that
holds it, and the heads, tails and crawlers of a list are modified with the lock of the list, exactly if every
request names classes and every list whose crawler runs is visited with its client there. -/
theorem crawler_locks_iff (hash : Bytes → ℕ) {power fuel : ℕ} (hpower : power ≤ 31) (doRun : Bool)
    (es : List CrawlerEvent) (hfuel : es.length + 6 ≤ fuel)
    (hpossible : Trace.AllPartial (crawlerStep hash fuel) CrawlerEvent.Possible (.init power doRun) es) :
    (es.foldlM (crawlerStep hash fuel) (.init power doRun)).isSome ↔
      Trace.AllPartial (crawlerStep hash fuel) CrawlerEvent.Fine (.init power doRun) es := by
  refine Trace.isSome_foldlM_iff (CrawlerSystem.Good hash fuel) (fun n s e hgood he => ?_)
    (fun n s e s' hgood he hs => ?_)
    _ es ⟨⟨_, ∅, inv_init hash hpower, by simpa using hfuel⟩, rfl⟩ hpossible
  · obtain ⟨hfine, hbad⟩ := hgood.step he
    constructor
    · intro hsome
      by_contra hnot
      rw [hbad hnot] at hsome
      cases hsome
    · intro hok
      obtain ⟨s', hs', -⟩ := hfine hok
      rw [hs']
      rfl
  · obtain ⟨hfine, hbad⟩ := hgood.step he
    by_cases hok : e.Fine s
    · obtain ⟨s₁, hs₁, hgood₁⟩ := hfine hok
      rw [hs] at hs₁
      rwa [Option.some.inj hs₁]
    · rw [hbad hok] at hs
      cases hs

theorem possible_visit {hash : Bytes → ℕ} {fuel : ℕ} {s : CrawlerSystem} {slabs : Bytes}
    {req : CrawlRequest}
    (i : UInt8) (v : Visit) (hs : s.mode = .waiting)
    (hreq : (lruCrawlerCrawl slabs req s).2.1.mode = .waiting) :
    Trace.AllPartial (crawlerStep hash fuel) CrawlerEvent.Possible s [.crawl slabs req, .wake, .visit i v] := by
  refine ⟨fun hrunning => ?_, fun s₁ h₁ => ⟨?_, fun s₂ h₂ => ⟨?_, fun _ _ => trivial⟩⟩⟩
  · rw [hs] at hrunning
    cases hrunning
  · obtain ⟨held, -, rfl⟩ := Option.map_eq_some_iff.mp h₁
    exact hreq
  · obtain ⟨held, -, rfl⟩ := Option.map_eq_some_iff.mp h₂
    rfl

/-- `lru_crawler metadump 1` on an empty cache, with a client that waits -/
theorem crawler_locks_client :
    let req : CrawlRequest := ⟨.metadump, 0xFFFFFFFF, some 5, true, 0⟩
    let v : Visit := ⟨⟨true, true, true, 20, 40, 0, 0, 0, 10⟩, true, false, fun _ => true, false⟩
    let es := [.crawl [49] req, .wake, .visit 1 v]
    (es.foldlM (crawlerStep length 9) (.init 4 true)).isSome = true ∧
      Trace.AllPartial (crawlerStep length 9) CrawlerEvent.Fine (.init 4 true) es := by
  intro req v es
  have hrun : (es.foldlM (crawlerStep length 9) (.init 4 true)).isSome = true := by decide +kernel
  exact ⟨hrun, (crawler_locks_iff length (by decide) true es (by decide)
    (possible_visit 1 v rfl (by decide +kernel))).mp hrun⟩

/-- **A bad class and a client that is gone.** `lru_crawler crawl 0` releases a lock that is not held. When the
client of `lru_crawler metadump 1` closes its connection, the crawler is taken out of the list without the lock of
the list. -/
theorem crawler_locks_broken :
    let req : CrawlRequest := ⟨.metadump, 0xFFFFFFFF, some 5, true, 0⟩
    let gone : Visit := ⟨⟨true, true, true, 20, 40, 0, 0, 0, 10⟩, false, true, fun _ => true, false⟩
    (Trace.AllPartial (crawlerStep length 9) CrawlerEvent.Possible (.init 4 true) [.crawl [48] req] ∧
      [.crawl [48] req].foldlM (crawlerStep length 9) (.init 4 true) = none) ∧
    Trace.AllPartial (crawlerStep length 9) CrawlerEvent.Possible (.init 4 true)
        [.crawl [49] req, .wake, .visit 1 gone] ∧
      [.crawl [49] req, .wake, .visit 1 gone].foldlM (crawlerStep length 9) (.init 4 true) = none := by
  intro req gone
  refine ⟨⟨⟨(by intro hrunning; cases hrunning), fun _ _ => trivial⟩, ?_⟩,
    possible_visit 1 gone rfl (by decide +kernel), ?_⟩
  · rw [← Option.isNone_iff_eq_none]
    decide +kernel
  · rw [← Option.isNone_iff_eq_none]
    decide +kernel

end BmcCache
