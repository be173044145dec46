import BmcCache.Flush

/-!
# Expiration times

A TTL argument is 0, a number of seconds, an absolute time or a negative number; `realtime` makes of it the `exptime` of
the item, 32 bits that count from the start of the process, of which 0 means never.

* `TtlCommand` — the commands that set a TTL, with the arguments they accept and the `exptime` they make of it;
* `Lives` — what the protocol promises;
* `Fits` — when the promise is kept; `lives_iff`, `fits_of_got` are the arithmetic;
* `SetsTtl`, `expiration_iff` — every command, from the store it is executed in to every later retrieval.
-/

namespace BmcCache

open ItemStore

/-! ### Arguments -/

inductive TtlCommand where
  /-- `set`, `add`, `replace`, `cas` -/
  | update
  /-- `touch`, `gat`, `gats` -/
  | touch
  /-- `mg` with `T` or `N` -/
  | mget
  /-- `ms` with `T` -/
  | mset
  /-- `md` with `I` and `T` -/
  | mdelete
  deriving DecidableEq, Repr

namespace TtlCommand

/-- What `safe_strtol` or `safe_strtoul` lets through. -/
def Accepts (e : ℤ) : TtlCommand → Prop
  | .update | .touch | .mget => -2 ^ 31 ≤ e ∧ e < 2 ^ 31
  | .mset | .mdelete => 0 ≤ e ∧ e < 2 ^ 32

/-- The `exptime` of the item; `process_update_command` and `process_mset_command` replace a negative argument. -/
def exptime (cfg : Settings) (now : ℕ) (e : ℤ) : TtlCommand → ℕ
  | .update | .mset => realtime cfg now (if e < 0 then realtimeMaxdelta + 1 else e)
  | .touch | .mget | .mdelete => realtime cfg now e

/-- The sum does not wrap around, and a negative argument gives a time that is over when the item gets it. -/
def Fits (cfg : Settings) (now got : ℕ) (e : ℤ) (c : TtlCommand) : Prop :=
  (0 < e → e ≤ realtimeMaxdelta → now + e ≤ 2 ^ 32) ∧
    (e < 0 →
      match c with
      | .update => realtimeMaxdelta + 1 ≤ cfg.processStarted + got
      | .touch | .mget => -now < e
      | .mset | .mdelete => True)

end TtlCommand

/-- **What the protocol promises** of the time `t`, when the command is executed at `now`: the item is still there. -/
def Lives (processStarted now : ℕ) (e : ℤ) (t : ℕ) : Prop :=
  e = 0 ∨ 0 < e ∧ e ≤ realtimeMaxdelta ∧ (t : ℤ) < now + e ∨ realtimeMaxdelta < e ∧
    (processStarted + t : ℤ) < e

/-! ### Arithmetic -/

theorem realtime_cases (cfg : Settings) (now : ℕ) (e : ℤ) :
    e = 0 ∧ realtime cfg now e = 0 ∨
    realtimeMaxdelta < e ∧ e ≤ cfg.processStarted ∧ realtime cfg now e = 1 ∨
    realtimeMaxdelta < e ∧ cfg.processStarted < e ∧
      (realtime cfg now e : ℤ) = (e - cfg.processStarted) % 2 ^ 32 ∨
    e ≠ 0 ∧ e ≤ realtimeMaxdelta ∧ (realtime cfg now e : ℤ) = (e + now) % 2 ^ 32 := by
  unfold realtime
  split
  · rename_i h0
    exact .inl ⟨h0, rfl⟩
  rename_i h0
  split
  · rename_i hmax
    split
    · rename_i hstarted
      exact .inr (.inl ⟨hmax, hstarted, rfl⟩)
    · rename_i hstarted
      refine .inr (.inr (.inl ⟨hmax, by omega, ?_⟩))
      exact Int.toNat_of_nonneg (Int.emod_nonneg _ (by norm_num))
  · rename_i hmax
    refine .inr (.inr (.inr ⟨h0, by omega, ?_⟩))
    exact Int.toNat_of_nonneg (Int.emod_nonneg _ (by norm_num))

theorem realtime_lives {cfg : Settings} {now t : ℕ} {e : ℤ} (he : 0 ≤ e) (hlt : e < 2 ^ 32)
    (hfits : 0 < e → e ≤ realtimeMaxdelta → now + e ≤ 2 ^ 32) (hnow : 2 ≤ now) (ht : now ≤ t)
    (ht' : t < 2 ^ 32) :
    (realtime cfg now e = 0 ∨ t < realtime cfg now e) ↔ Lives cfg.processStarted now e t := by
  have hcases := realtime_cases cfg now e
  generalize realtime cfg now e = r at hcases ⊢
  unfold Lives
  unfold realtimeMaxdelta at *
  omega

theorem exptime_neg {cfg : Settings} {c : TtlCommand} {now got t : ℕ} {e : ℤ} (haccepts : c.Accepts e) (he : e < 0)
    (hnow : 2 ≤ now) (hgot : now ≤ got) (hsame : c = .touch ∨ c = .mget → got = now)
    (hlt : got < 2 ^ 32) (ht : got ≤ t) :
    (c.Fits cfg now got e → ¬(c.exptime cfg now e = 0 ∨ t < c.exptime cfg now e)) ∧
      (¬c.Fits cfg now got e → c.exptime cfg now e = 0 ∨ got < c.exptime cfg now e) := by
  have hsum := realtime_cases cfg now e
  have hmax := realtime_cases cfg now (realtimeMaxdelta + 1)
  unfold TtlCommand.Fits TtlCommand.exptime
  unfold TtlCommand.Accepts at haccepts
  unfold realtimeMaxdelta at *
  cases c with
  | update =>
    dsimp only at haccepts ⊢
    rw [if_pos he]
    generalize realtime cfg now _ = r at hmax ⊢
    omega
  | touch =>
    dsimp only at haccepts ⊢
    have hgot' := hsame (.inl rfl)
    generalize realtime cfg now e = r at hsum ⊢
    omega
  | mget =>
    dsimp only at haccepts ⊢
    have hgot' := hsame (.inr rfl)
    generalize realtime cfg now e = r at hsum ⊢
    omega
  | mset =>
    dsimp only at haccepts
    omega
  | mdelete =>
    dsimp only at haccepts
    omega

theorem exptime_nonneg {cfg : Settings} (c : TtlCommand) (now : ℕ) {e : ℤ} (he : 0 ≤ e) :
    c.exptime cfg now e = realtime cfg now e := by
  have hclamp : (if e < 0 then realtimeMaxdelta + 1 else e) = e := if_neg (by omega)
  cases c with
  | update => rw [TtlCommand.exptime, hclamp]
  | touch => rfl
  | mget => rfl
  | mset => rw [TtlCommand.exptime, hclamp]
  | mdelete => rfl

theorem accepts_lt {c : TtlCommand} {e : ℤ} (h : c.Accepts e) : e < 2 ^ 32 := by
  cases c with
  | update => exact h.2.trans (by norm_num)
  | touch => exact h.2.trans (by norm_num)
  | mget => exact h.2.trans (by norm_num)
  | mset => exact h.2
  | mdelete => exact h.2

theorem not_lives_neg {processStarted now t : ℕ} {e : ℤ} (he : e < 0) : ¬Lives processStarted now e t := by
  unfold Lives realtimeMaxdelta
  omega

/-- When the promise is kept, the item is there exactly as long as promised. -/
theorem lives_iff {cfg : Settings} {c : TtlCommand} {now got t : ℕ} {e : ℤ} (haccepts : c.Accepts e)
    (hfits : c.Fits cfg now got e) (hnow : 2 ≤ now) (hgot : now ≤ got)
    (hsame : c = .touch ∨ c = .mget → got = now)
    (ht : got ≤ t) (ht' : t < 2 ^ 32) :
    (c.exptime cfg now e = 0 ∨ t < c.exptime cfg now e) ↔ Lives cfg.processStarted now e t := by
  by_cases he : 0 ≤ e
  · rw [exptime_nonneg c now he]
    exact realtime_lives he (accepts_lt haccepts) hfits.1 hnow (hgot.trans ht) ht'
  · have hneg : e < 0 := by omega
    exact iff_of_false ((exptime_neg haccepts hneg hnow hgot hsame (by omega) ht).1 hfits) (not_lives_neg hneg)

/-- Otherwise it is not kept from the very time on at which the item gets its `exptime`. -/
theorem fits_of_got {cfg : Settings} {c : TtlCommand} {now got : ℕ} {e : ℤ} (haccepts : c.Accepts e)
    (hnow : 2 ≤ now) (hgot : now ≤ got) (hsame : c = .touch ∨ c = .mget → got = now) (hlt : got < 2 ^ 32)
    (h : (c.exptime cfg now e = 0 ∨ got < c.exptime cfg now e) ↔ Lives cfg.processStarted now e got) :
    c.Fits cfg now got e := by
  by_cases he : 0 ≤ e
  · rw [exptime_nonneg c now he] at h
    refine ⟨fun hpos hmax => ?_, fun hneg => by omega⟩
    have hcases := realtime_cases cfg now e
    generalize realtime cfg now e = r at hcases h
    unfold Lives at h
    unfold realtimeMaxdelta at *
    omega
  · have hneg : e < 0 := by omega
    by_contra hfits
    exact not_lives_neg hneg (h.mp ((exptime_neg haccepts hneg hnow hgot hsame hlt le_rfl).2 hfits))

/-! ### `mg` with `T` and `N` -/

def MetaFlag.SetsExptime (created : Bool) : MetaFlag → Prop
  | .ttl _ => True
  | .vivify _ => created = true
  | _ => False

def MetaFlag.ttlToken : MetaFlag → Option ℤ
  | .ttl token | .vivify token => token
  | _ => none

section Loop

variable {cfg : Settings} {now : ℕ} {created : Bool}

theorem mgetFlag_failed {st : MgetLoop} (h : st.failed = true) (flag : MetaFlag) :
    mgetFlag cfg now created st flag = st := by
  unfold mgetFlag
  rw [if_pos h]

theorem foldl_failed {st : MgetLoop} (h : st.failed = true) (flags : List MetaFlag) :
    flags.foldl (mgetFlag cfg now created) st = st := by
  induction flags with
  | nil => rfl
  | cons flag flags ih => rw [List.foldl_cons, mgetFlag_failed h, ih]

theorem mgetFlag_keeps {flag : MetaFlag} (hflag : ¬flag.SetsExptime created) (st : MgetLoop) :
    (mgetFlag cfg now created st flag).it.exptime = st.it.exptime := by
  unfold mgetFlag
  split
  · rfl
  cases flag with
  | ttl token => exact absurd trivial hflag
  | vivify token =>
    dsimp only
    rw [if_neg (show ¬created = true from hflag)]
  | recache token =>
    dsimp only
    split
    · cases token with
      | none => rfl
      | some e =>
        dsimp only
        split
        · rfl
        · rfl
    · rfl
  | echo fits =>
    dsimp only
    split
    · rfl
    · rfl
  | lastAccess => rfl
  | hit => rfl
  | noUpdate => rfl
  | other => rfl

theorem foldl_keeps {flags : List MetaFlag} (hflags : ∀ flag ∈ flags, ¬flag.SetsExptime created) (st : MgetLoop) :
    (flags.foldl (mgetFlag cfg now created) st).it.exptime = st.it.exptime := by
  induction flags generalizing st with
  | nil => rfl
  | cons flag flags ih =>
    rw [List.foldl_cons, ih fun f hf => hflags f (List.mem_cons_of_mem _ hf),
      mgetFlag_keeps (hflags flag List.mem_cons_self)]

theorem mgetFlag_sets {flag : MetaFlag} (hflag : flag.SetsExptime created) {e : ℤ} (htoken : flag.ttlToken = some e)
    {st : MgetLoop} (hst : st.failed = false) :
    (mgetFlag cfg now created st flag).it.exptime = realtime cfg now e := by
  unfold mgetFlag
  rw [if_neg (by simp [hst])]
  cases flag with
  | ttl token =>
    obtain rfl : token = some e := htoken
    rfl
  | vivify token =>
    obtain rfl : token = some e := htoken
    obtain rfl : created = true := hflag
    rfl
  | _ => exact hflag.elim

theorem mgetLoop_fold (cfg : Settings) (now : ℕ) (created : Bool) (it : StrItem) (flags : List MetaFlag) :
    let st := flags.foldl (mgetFlag cfg now created) ⟨it, it.stale && !it.tokenSent, false⟩
    (mgetLoop cfg now created it flags).failed = st.failed ∧
      (mgetLoop cfg now created it flags).it.exptime = st.it.exptime := by
  dsimp only
  unfold mgetLoop
  dsimp only
  split
  · exact ⟨rfl, rfl⟩
  · exact ⟨rfl, rfl⟩

theorem mgetLoop_exptime {before after : List MetaFlag} {flag : MetaFlag} (hflag : flag.SetsExptime created) {e : ℤ}
    (htoken : flag.ttlToken = some e) (hafter : ∀ f ∈ after, ¬f.SetsExptime created) {it : StrItem}
    (hok : (mgetLoop cfg now created it (before ++ flag :: after)).failed = false) :
    (mgetLoop cfg now created it (before ++ flag :: after)).it.exptime = realtime cfg now e := by
  obtain ⟨hfailed, hexp⟩ := mgetLoop_fold cfg now created it (before ++ flag :: after)
  rw [hfailed] at hok
  rw [hexp]
  rw [List.foldl_append, List.foldl_cons] at hok ⊢
  generalize before.foldl (mgetFlag cfg now created) ⟨it, it.stale && !it.tokenSent, false⟩ = st at hok ⊢
  have hst : st.failed = false := by
    by_contra hst
    rw [Bool.not_eq_false] at hst
    rw [mgetFlag_failed hst, foldl_failed hst, hst] at hok
    cases hok
  rw [foldl_keeps hafter, mgetFlag_sets hflag htoken hst]

end Loop

/-! ### Every command -/

/-- The event is such a command on the key: it sets the TTL `e`, given at `now`, and succeeds. -/
inductive SetsTtl (cfg : Settings) (key : Bytes) (s : ItemStore) : TtlCommand → ℕ → ℤ →
    StoreEvent → Prop
  /-- the item is allocated when the command line is read and stored when its data is there; `ms` with `I` and a lower
  CAS value keeps the TTL of the old item -/
  | store (c : TtlCommand) (hc : c = .update ∨ c = .mset) (now : ℕ) (e : ℤ) (m : Memory) (setStale : Bool)
      (comm : NreadComm) (it : StrItem) (hit : Brought cfg it) (hkey : it.itemKey = key)
      (hcomm : comm ≠ .append ∧ comm ≠ .prepend)
      (hstale : setStale = true → ∀ old, s.visible cfg key = some old → old.itemGetCas ≤ it.itemGetCas)
      (hnow : now ≤ s.currentTime) (hexp : it.exptime = c.exptime cfg now e)
      (hdone : (s.reply cfg (.store m setStale comm it)).Succeeds) :
        SetsTtl cfg key s c now e (.store m setStale comm it)
  | touch (e : ℤ) (async : Bool) (x : StrItem) (hdone : s.reply cfg (.touch key e async) = .found (some x)) :
      SetsTtl cfg key s .touch s.currentTime e (.touch key e async)
  /-- of the flags that set the exptime the last one counts; `N` does if the item is created -/
  | mget (e : ℤ) (m : Memory) (before after : List MetaFlag) (flag : MetaFlag) (async : Bool) (st : MgetLoop)
      (hflag : flag.SetsExptime (s.visible cfg key).isNone) (htoken : flag.ttlToken = some e)
      (hafter : ∀ f ∈ after, ¬f.SetsExptime (s.visible cfg key).isNone)
      (hlimit : BelowLimit cfg s key (before ++ flag :: after))
      (hdone : s.reply cfg (.mget m key (before ++ flag :: after) async) = .looped (some st))
        (hok : st.failed = false) :
      SetsTtl cfg key s .mget s.currentTime e (.mget m key (before ++ flag :: after) async)
  | mdelete (e : ℤ) (cas : ℕ) (hdone : s.reply cfg (.delete key cas true (some e)) = .deleted .deleted) :
      SetsTtl cfg key s .mdelete s.currentTime e (.delete key cas true (some e))

variable {cfg : Settings} {key : Bytes} {s : ItemStore} {c : TtlCommand} {now : ℕ} {e : ℤ} {ev : StoreEvent}

/-- A storage command stores its item as it is, if it is not `append` or `prepend`. -/
theorem storeDecision_self {m : Memory} {setStale : Bool} {comm : NreadComm}
    (hcomm : comm ≠ .append ∧ comm ≠ .prepend)
    {it x : StrItem} {old : Option StrItem}
    (hstale : setStale = true → ∀ y, old = some y → y.itemGetCas ≤ it.itemGetCas)
    (h : storeDecision cfg m setStale comm it now old = .inr x) : x = it := by
  cases old with
  | none =>
    cases comm <;> simp_all [storeDecision]
  | some y =>
    cases comm with
    | add => simp [storeDecision] at h
    | set => simpa [storeDecision] using h.symm
    | replace => simpa [storeDecision] using h.symm
    | append => exact absurd rfl hcomm.1
    | prepend => exact absurd rfl hcomm.2
    | cas =>
      have hlower : ¬(setStale = true ∧ it.itemGetCas < y.itemGetCas) :=
        fun hboth => absurd hboth.2 (hstale hboth.1 y rfl).not_gt
      by_cases hcas : it.itemGetCas = y.itemGetCas
      · simpa [storeDecision, hcas] using h.symm
      · rw [storeDecision, if_neg hcas, if_neg hlower] at h
        cases h

theorem SetsTtl.item (h : SetsTtl cfg key s c now e ev) (hs : s.Sound cfg) :
    ∃ it, (s.after cfg ev).assocFind cfg key = some it ∧ it.exptime = c.exptime cfg now e := by
  cases h with
  | store c hc now e m setStale comm it hit hkey hcomm hstale hnow hexp hdone =>
    subst hkey
    have hstored : (s.completeStore cfg m setStale comm it).1 = .stored := hdone
    cases hdec : storeDecision cfg m setStale comm it s.currentTime ((s.visible cfg it.itemKey).map held) with
    | inl res =>
      rw [(completeStore_refused hs hit hdec).1] at hstored
      exact (storeDecision_ne_stored (hstored ▸ hdec)).elim
    | inr x =>
      have hcas : setStale = true → ∀ y, (s.visible cfg it.itemKey).map held = some y →
          y.itemGetCas ≤ it.itemGetCas := by
        intro hset y hy
        obtain ⟨old, hold, rfl⟩ := Option.map_eq_some_iff.mp hy
        rw [(Accessed.held s.currentTime old).cas_eq]
        exact hstale hset old hold
      obtain rfl := storeDecision_self hcomm hcas hdec
      obtain ⟨-, -, heff, -⟩ := completeStore_accepted hs hit hdec
      exact ⟨_, heff.find_self, hexp⟩
  | touch e async x hdone =>
    have hcases := touchItem_cases hs key e async
    change StoreReply.found (s.touchItem cfg key e async).1 = _ at hdone
    change ∃ it, (s.touchItem cfg key e async).2.assocFind cfg key = some it ∧ _
    generalize s.touchItem cfg key e async = got at hcases hdone ⊢
    cases hcases with
    | miss s' hvisible heff => cases hdone
    | hit it shown it' s' hvisible hshown hkept hexp heff => exact ⟨it', heff.find_self, hexp⟩
  | mget e m before after flag async st hflag htoken hafter hlimit hdone hok =>
    have hcases := processMget_cases hs m key (before ++ flag :: after) async hlimit
    change StoreReply.looped (s.processMget cfg m key (before ++ flag :: after) async).1 = _ at hdone
    change ∃ it, (s.processMget cfg m key (before ++ flag :: after) async).2.assocFind cfg key = some it ∧ _
    generalize s.processMget cfg m key (before ++ flag :: after) async = got at hcases hdone ⊢
    cases hcases with
    | miss s' v hkept heff => cases hdone
    | hit it x it' s' hvisible hshown hkept hexp heff =>
      obtain rfl := Option.some.inj (StoreReply.looped.inj hdone)
      rw [hvisible] at hflag hafter
      exact ⟨it', heff.find_self, hexp.trans (mgetLoop_exptime hflag htoken hafter hok)⟩
    | created x it' s' hvisible hflags hcas htime hshown hkept hexp heff =>
      obtain rfl := Option.some.inj (StoreReply.looped.inj hdone)
      rw [hvisible] at hflag hafter
      exact ⟨it', heff.find_self, hexp.trans (mgetLoop_exptime hflag htoken hafter hok)⟩
  | mdelete e cas hdone =>
    have hcases := processDelete_cases hs key cas true (some e)
    change StoreReply.deleted (s.processDelete cfg key cas true (some e)).1 = _ at hdone
    change ∃ it, (s.processDelete cfg key cas true (some e)).2.assocFind cfg key = some it ∧ _
    generalize s.processDelete cfg key cas true (some e) = got at hcases hdone ⊢
    cases hcases with
    | miss s' hvisible heff => cases hdone
    | refused it it' s' hvisible hacc heff => cases hdone
    | staled it it' s' hvisible hstale hcas htime hexp hsize heff => exact ⟨it', heff.find_self, hexp⟩
    | gone it s' hvisible hstale heff => cases hstale

theorem SetsTtl.times (h : SetsTtl cfg key s c now e ev) :
    now ≤ s.currentTime ∧ (c = .touch ∨ c = .mget → s.currentTime = now) := by
  cases h with
  | store c hc now e m setStale comm it hit hkey hcomm hstale hnow hexp hdone =>
    refine ⟨hnow, fun h => ?_⟩
    obtain rfl | rfl := hc
    · exact absurd h (by simp)
    · exact absurd h (by simp)
  | touch => exact ⟨le_rfl, fun _ => rfl⟩
  | mget => exact ⟨le_rfl, fun _ => rfl⟩
  | mdelete => exact ⟨le_rfl, fun _ => rfl⟩

theorem SetsTtl.proper (h : SetsTtl cfg key s c now e ev) : ev.Proper cfg s ∧ ev.ticks = 0 := by
  cases h with
  | store c hc now e m setStale comm it hit => exact ⟨hit, rfl⟩
  | touch => exact ⟨trivial, rfl⟩
  | mget e m before after flag async st hflag htoken hafter hlimit => exact ⟨hlimit, rfl⟩
  | mdelete => exact ⟨trivial, rfl⟩

/-! ### Retrievals as time passes -/

/-- No `flush_all` hides the item. -/
def Unflushed (cfg : Settings) (key : Bytes) (s : ItemStore) : Prop :=
  ∀ it, s.assocFind cfg key = some it → s.itemIsFlushed it = false

theorem unflushed_of_zero (h : s.oldestLive = 0) : Unflushed cfg key s := by
  intro it hfind
  rw [itemIsFlushed, if_pos (.inl h)]

def Passes (cfg : Settings) (key : Bytes) (s : ItemStore) (ev : StoreEvent) : Prop :=
  Unflushed cfg key s ∧ ((∃ n, ev = .tick n) ∨ ∃ k doUpdate async, ev = .get k doUpdate async)

/-- The item of the key has the `exptime`, or was unlinked by a retrieval after it. -/
structure Timed (cfg : Settings) (key : Bytes) (exptime : ℕ) (s : ItemStore) : Prop where
  sound : s.Sound cfg
  gone : s.assocFind cfg key = none → exptime ≠ 0 ∧ exptime ≤ s.currentTime
  found : ∀ it, s.assocFind cfg key = some it → it.exptime = exptime

theorem Timed.isSome_visible {exptime : ℕ} (h : Timed cfg key exptime s) (hlive : Unflushed cfg key s) :
    (s.visible cfg key).isSome = true ↔ exptime = 0 ∨ s.currentTime < exptime := by
  cases hfind : s.assocFind cfg key with
  | none =>
    obtain ⟨hne, hle⟩ := h.gone hfind
    rw [visible, hfind, Option.filter_none, Option.isSome_none]
    exact iff_of_false Bool.false_ne_true (by omega)
  | some it =>
    rw [visible, hfind, Option.filter_some, hlive it hfind, itemIsExpired, h.found it hfind, Bool.false_or]
    by_cases hexpired : exptime ≠ 0 ∧ exptime ≤ s.currentTime
    · rw [decide_eq_true hexpired]
      exact iff_of_false Bool.false_ne_true (by omega)
    · rw [decide_eq_false hexpired]
      exact iff_of_true rfl (by omega)

theorem Timed.after {exptime : ℕ} (h : Timed cfg key exptime s) (hpass : Passes cfg key s ev) :
    Timed cfg key exptime (s.after cfg ev) ∧ s.currentTime ≤ (s.after cfg ev).currentTime := by
  obtain ⟨hlive, ⟨n, rfl⟩ | ⟨k, doUpdate, async, rfl⟩⟩ := hpass
  · have hle : s.currentTime ≤ s.currentTime + n := Nat.le_add_right _ _
    exact ⟨⟨sound_after h.sound trivial, fun hnone => ⟨(h.gone hnone).1, (h.gone hnone).2.trans hle⟩,
      h.found⟩, hle⟩
  have hvisible := h.isSome_visible hlive
  have hcases := getItem_cases h.sound k doUpdate async
  change Timed cfg key exptime (s.getItem cfg k doUpdate async).2 ∧
    s.currentTime ≤ (s.getItem cfg k doUpdate async).2.currentTime
  generalize s.getItem cfg k doUpdate async = got at hcases
  cases hcases with
  | miss s' hmiss heff =>
    refine ⟨⟨heff.sound, fun hnone => ?_, fun it hfind => ?_⟩, heff.currentTime_eq.ge⟩
    · rw [heff.currentTime_eq]
      by_cases hk : key = k
      · rw [hk, hmiss] at hvisible
        have hdead := mt hvisible.mpr Bool.false_ne_true
        omega
      · exact h.gone ((heff.find_ne hk).symm.trans hnone)
    · by_cases hk : key = k
      · rw [hk, heff.find_self] at hfind
        cases hfind
      · exact h.found it ((heff.find_ne hk).symm.trans hfind)
  | hit it shown it' s' hit hshown hkept hexp heff =>
    refine ⟨⟨heff.sound, fun hnone => ?_, fun x hfind => ?_⟩, heff.currentTime_eq.ge⟩
    · rw [heff.currentTime_eq]
      by_cases hk : key = k
      · rw [hk, heff.find_self] at hnone
        cases hnone
      · exact h.gone ((heff.find_ne hk).symm.trans hnone)
    · by_cases hk : key = k
      · subst hk
        obtain rfl := Option.some.inj (heff.find_self.symm.trans hfind)
        exact hexp.trans (h.found it (find_of_visible hit))
      · exact h.found x ((heff.find_ne hk).symm.trans hfind)

theorem SetsTtl.timed (h : SetsTtl cfg key s c now e ev) (hs : s.Sound cfg) :
    Timed cfg key (c.exptime cfg now e) (s.after cfg ev) ∧ (s.after cfg ev).currentTime = s.currentTime := by
  obtain ⟨it, hfind, hexp⟩ := h.item hs
  have hspec := execEvent_spec hs h.proper.1
  refine ⟨⟨hspec.sound, fun hnone => ?_, fun x hx => ?_⟩, ?_⟩
  · cases hnone.symm.trans hfind
  · obtain rfl := Option.some.inj (hfind.symm.trans hx)
    exact hexp
  · rw [ItemStore.after, hspec.currentTime_eq, h.proper.2, Nat.add_zero]

/-- **Expiration times.** A command gives the item of its key a TTL at the clock value `now`. If its argument fits,
then after any time and any retrievals the item is found exactly if it is promised to be there; and only then. -/
theorem expiration_iff (hs : s.Sound cfg) (hclock : s.currentTime < 2 ^ 32) (hnow : 2 ≤ now) (haccepts : c.Accepts e)
    (h : SetsTtl cfg key s c now e ev) (hlive : Unflushed cfg key (s.after cfg ev)) :
    c.Fits cfg now s.currentTime e ↔
      ∀ es, Trace.All (ItemStore.after cfg) (Passes cfg key) (s.after cfg ev) es →
        Unflushed cfg key (Trace.run (ItemStore.after cfg) (s.after cfg ev) es) →
        (Trace.run (ItemStore.after cfg) (s.after cfg ev) es).currentTime < 2 ^ 32 →
        ∀ doUpdate async,
          (((Trace.run (ItemStore.after cfg) (s.after cfg ev) es).doItemGet cfg key doUpdate async).1.isSome = true ↔
            Lives cfg.processStarted now e (Trace.run (ItemStore.after cfg) (s.after cfg ev) es).currentTime) := by
  obtain ⟨hgot, hsame⟩ := h.times
  obtain ⟨htimed, htime⟩ := h.timed hs
  constructor
  · intro hfits es hall hlive' hclock' doUpdate async
    have hinv := Trace.run_invariant
      (fun s' => Timed cfg key (c.exptime cfg now e) s' ∧ s.currentTime ≤ s'.currentTime)
      (fun s' ev' hI hpass => ⟨(hI.1.after hpass).1, hI.2.trans (hI.1.after hpass).2⟩) _ es ⟨htimed,
        htime.ge⟩ hall
    rw [doItemGet_isSome hinv.1.sound, hinv.1.isSome_visible hlive']
    exact lives_iff haccepts hfits hnow hgot hsame hinv.2 hclock'
  · intro hall
    have hfirst := hall [] trivial hlive (by rw [Trace.run_nil, htime]; exact hclock) true false
    rw [Trace.run_nil, doItemGet_isSome htimed.sound, htimed.isSome_visible hlive, htime] at hfirst
    exact fits_of_got haccepts hnow hgot hsame hclock hfirst

/-- `"a"` is set for 100 seconds; it is retrieved after 99 seconds, and again. -/
theorem expiration_set :
    ((Trace.run (ItemStore.after smallChunks) ((start 4 0 100).after smallChunks
      (.store zeroMemory false .set (smallItem [120] 200 0))) [.tick 99, .get [97] true false]).doItemGet smallChunks
        [97] true false).1.isSome = true := by
  have hsets : SetsTtl smallChunks [97] (start 4 0 100) .update 100 100
      (.store zeroMemory false .set (smallItem [120] 200 0)) :=
    .store .update (.inl rfl) 100 100 zeroMemory false .set (smallItem [120] 200 0) (brought_smallItem _ _ _)
      (by decide +kernel) ⟨by decide, by decide⟩ nofun le_rfl (by decide +kernel) (by decide +kernel)
  have hfits : TtlCommand.Fits smallChunks 100 100 100 .update := ⟨fun _ _ => by norm_num, fun h => by omega⟩
  have haccepts : TtlCommand.Accepts 100 .update := ⟨by norm_num, by norm_num⟩
  have hall := (expiration_iff (sound_start _ _ _ _) (by decide) (by decide) haccepts hsets
    (unflushed_of_zero (by decide +kernel))).mp hfits [.tick 99, .get [97] true false]
    ⟨⟨unflushed_of_zero (by decide +kernel), .inl ⟨99, rfl⟩⟩,
      ⟨unflushed_of_zero (by decide +kernel), .inr ⟨[97], true, false, rfl⟩⟩, trivial⟩
    (unflushed_of_zero (by decide +kernel)) (by decide +kernel) true false
  exact hall.mpr (.inr (.inl ⟨by decide, by decide, by decide +kernel⟩))

/-- `"a"` is set for ever, then touched with −200 at the clock value 100: it is still there. -/
theorem expiration_touch_back :
    ((((start 4 0 100).after smallChunks (.store zeroMemory false .set (smallItem [120] 0 0))).after smallChunks
      (.touch [97] (-200) false)).doItemGet smallChunks [97] true false).1.map StrItem.value = some [120] := by
  decide +kernel

end BmcCache
