import BmcCache.MetaCommands
import BmcCache.RefCounts

/-!
# `process_mget_command` with its lock and its reply

The whole command: the tokens of its line, the lookup with or without the item lock and with the limit on references,
the item that `N` creates, the flags one by one with the bytes they print, and the two ways out.

* `parseMget` — the line, as far as it is checked before the lookup; `processMgetCommand_eq` says that the connection
  reads the same line;
* `MgetState` — the store with the number of times that the item lock was taken and given back;
* `processMgetCommand` — the command, with its reply and the item that the connection goes on holding;
* `Refused` — the flags go to `error`, read off the line and the item (`mgetPrint_failed_iff`);
* `MgetState.Got` — everything the lookup can do;
* `mgetLine_released` — the store is the one that `processMget` leaves;
* `failed_mget_iff` — a failed command changes nothing and every lock is given back, exactly if the lock is not taken
  for an item above the limit and no flag is refused for an item that was found or created.
-/

namespace BmcCache

open ByteBuffer ItemStore

/-! ### The line -/

/-- What `process_mget_command` takes from its tokens: `opts`, the tokens from `rtokens` on, and `of.no_reply`. -/
structure MgetLine where
  key : Bytes
  opts : Bytes
  rtokens : List Bytes
  noReply : Bool
  deriving DecidableEq, Repr

namespace MgetLine

variable (line : MgetLine)

/-- `of.locked` -/
def locked : Bool := line.opts.any (· ∈ token ['N', 'T', 'R', 'l', 'h'])

/-- `of.vivify` -/
def vivify : Bool := decide (Char.toUInt8 'N' ∈ line.opts)

/-- `of.no_update` -/
def noUpdate : Bool := decide (Char.toUInt8 'u' ∈ line.opts)

end MgetLine

/-- `process_mget_command` up to the lookup: the line, or the error it is answered with. -/
def parseMget (tokens : List Bytes) : Except String MgetLine :=
  let opts := if ntokens tokens = 3 then token ['s', 'f', 't', 'v'] else tokens.getD 2 []
  let rtokens := if ntokens tokens = 3 then 3 else 4
  if keyMaxLength < (tokens.getD 1 []).length then .error "CLIENT_ERROR bad command line format"
  else if Conn.mflagMaxOptLength < opts.length then .error "CLIENT_ERROR options flags are too long"
  else
    match Conn.metaFlagPreparse [] opts with
    | none => .error "CLIENT_ERROR invalid or duplicate flag"
    | some (mfres, noReply) =>
      if mfres + rtokens ≠ ntokens tokens then .error "CLIENT_ERROR incorrect number of tokens supplied"
      else .ok ⟨tokens.getD 1 [], opts, tokens.drop 3, noReply⟩

def metaFlag (o : UInt8) (tok : Bytes) : MetaFlag :=
  if o = Char.toUInt8 'N' then .vivify (safeStrtol tok)
  else if o = Char.toUInt8 'T' then .ttl (safeStrtol tok)
  else if o = Char.toUInt8 'R' then .recache (safeStrtol tok)
  else if o = Char.toUInt8 'l' then .lastAccess
  else if o = Char.toUInt8 'h' then .hit
  else if o = Char.toUInt8 'u' then .noUpdate
  else if o = Char.toUInt8 'O' then .echo (decide (tok.length ≤ Conn.mflagMaxOpaqueLength))
  else .other

/-- The tokens behind a flag: `F`, `S` and `C` are counted before, but not skipped here. -/
def tokensBehind (o : UInt8) (rtokens : List Bytes) : List Bytes :=
  if o ∈ token ['N', 'T', 'R', 'O'] then rtokens.tail else rtokens

def metaFlags : Bytes → List Bytes → List MetaFlag
  | [], _ => []
  | o :: opts, rtokens => metaFlag o (rtokens.getD 0 []) :: metaFlags opts (tokensBehind o rtokens)

/-! ### The flags one by one -/

/-- The loop over the flags with what it prints: `p`, `of.value`, the next token and `errstr`. -/
structure MgetPrint where
  loop : MgetLoop
  p : Bytes
  value : Bool
  rtokens : List Bytes
  errstr : String

/-- What a flag prints; all numbers are of 32 bits but for the CAS value. -/
def printFlag (now : ℕ) (it : StrItem) (o : UInt8) (tok : Bytes) : Bytes :=
  let space := Char.toUInt8 ' '
  if o = Char.toUInt8 's' then space :: itoaU32 ((it.nbytes + 2 ^ 32 - 2) % 2 ^ 32)
  else if o = Char.toUInt8 't' then
    if it.exptime = 0 then token [' ', '-', '1'] else space :: itoaU32 ((it.exptime + 2 ^ 32 - now) % 2 ^ 32)
  else if o = Char.toUInt8 'c' then space :: itoaU64 3 it.itemGetCas
  else if o = Char.toUInt8 'f' then
    if flagsSize it.cflags = 0 then token [' ', '0'] else space :: itoaU32 it.flagsConv.toNat
  else if o = Char.toUInt8 'l' then space :: itoaU32 ((now + 2 ^ 32 - it.time) % 2 ^ 32)
  else if o = Char.toUInt8 'h' then if it.fetched then token [' ', '1'] else token [' ', '0']
  else if o = Char.toUInt8 'O' then space :: tok
  else if o = Char.toUInt8 'k' then space :: it.itemKey
  else []

/-- One character of `opts`; behind `goto error` there is none. -/
def mgetOption (cfg : Settings) (now : ℕ) (created : Bool) (st : MgetPrint) (o : UInt8) : MgetPrint :=
  let tok := st.rtokens.getD 0 []
  let loop := mgetFlag cfg now created st.loop (metaFlag o tok)
  if st.loop.failed then st
  else if loop.failed then
    { st with
      loop := loop
      errstr := if o = Char.toUInt8 'O' then "CLIENT_ERROR opaque token too long"
        else "CLIENT_ERROR bad tokens in command line format" }
  else
    { st with
      loop := loop
      p := st.p ++ printFlag now st.loop.it o tok
      value := st.value || decide (o = Char.toUInt8 'v')
      rtokens := tokensBehind o st.rtokens }

def MgetPrint.start (it : StrItem) (line : MgetLine) : MgetPrint :=
  ⟨⟨it, it.stale && !it.tokenSent, false⟩, [], false, line.rtokens, ""⟩

/-- The header line: the marks `W`, `X` and `Z` stand before the flags. -/
def mgetHeader (won stale tokenSent : Bool) (opts p : Bytes) : Bytes :=
  token ['V', 'A', ' '] ++ (if won then token ['W'] else []) ++ (if stale then token ['X'] else [])
    ++ (if tokenSent then token ['Z'] else []) ++ opts ++ p ++ crlf

/-! ### The command -/

inductive MgetReply where
  /-- `out_errstring` -/
  | error (errstr : String)
  /-- `EN`, which `q` suppresses -/
  | miss (quiet : Bool)
  /-- the header line, the value if it is asked for, and whether `EN` follows -/
  | value (header : Bytes) (data : Option Bytes) (en : Bool)
  deriving DecidableEq, Repr

/-- The store, and how often the lock of the item has been taken and given back. -/
structure MgetState where
  store : ItemStore
  locks : ℕ
  unlocks : ℕ

namespace MgetState

def itemLock (st : MgetState) : MgetState := { st with locks := st.locks + 1 }

def itemUnlock (st : MgetState) : MgetState := { st with unlocks := st.unlocks + 1 }

/-- `if (of.locked) item_unlock(hv)` -/
def unlockIf (locked : Bool) (st : MgetState) : MgetState := if locked then st.itemUnlock else st

def doItemGet (cfg : Settings) (key : Bytes) (doUpdate async : Bool) (st : MgetState) :
    Option StrItem × MgetState :=
  ((st.store.doItemGet cfg key doUpdate async).1, { st with store := (st.store.doItemGet cfg key doUpdate async).2 })

def doItemRemove (cfg : Settings) (it : StrItem) (st : MgetState) : MgetState :=
  { st with store := (st.store.doItemRemove cfg it).2 }

def limitedGet (cfg : Settings) (key : Bytes) (doUpdate async : Bool) (st : MgetState) :
    Option StrItem × MgetState :=
  let (it, st) := st.itemLock.doItemGet cfg key doUpdate async
  let st := st.itemUnlock
  match it with
  | none => (none, st)
  | some it => if overLimit it then (none, (st.itemLock.doItemRemove cfg it).itemUnlock) else (some it, st)

/-- `limited_get_locked`: for an item above the limit the lock is given back. -/
def limitedGetLocked (cfg : Settings) (key : Bytes) (st : MgetState) : Option StrItem × MgetState :=
  let (it, st) := st.itemLock.doItemGet cfg key false false
  match it with
  | none => (none, st)
  | some it => if overLimit it then (none, (st.doItemRemove cfg it).itemUnlock) else (some it, st)

/-- The lookup of `process_mget_command`. -/
def lookup (cfg : Settings) (line : MgetLine) (async : Bool) (st : MgetState) : Option StrItem × MgetState :=
  if line.locked then st.limitedGetLocked cfg line.key else st.limitedGet cfg line.key (!line.noUpdate) async

/-- `it == NULL && of.vivify`: the item, and whether it has been created. -/
def vivified (cfg : Settings) (m : Memory) (line : MgetLine) (it : Option StrItem) (st : MgetState) :
    Option (StrItem × Bool) × MgetState :=
  match it with
  | some it => (some (it, false), st)
  | none =>
    if line.vivify then
      match doItemAlloc cfg m st.store.currentTime line.key 0 (realtime cfg st.store.currentTime 0) 2 with
      | none => (none, st)
      | some it =>
        let (it, s) := st.store.doItemLink cfg (it.writeData 0 crlf)
        (some (it, true), { st with store := s })
    else (none, st)

end MgetState

/-- The end of the command: the reply, the item that it created, the item that the connection holds until the reply is
sent, the store and the lock. -/
structure MgetResult where
  reply : MgetReply
  created : Option StrItem
  item : Option StrItem
  state : MgetState

/-- `process_mget_command` behind the loop over the flags, which ends at `error` or with the delayed bump. -/
def mgetEnd (cfg : Settings) (line : MgetLine) (async created : Bool) (it : StrItem) (out : MgetPrint)
    (st : MgetState) :
    MgetResult :=
  if out.loop.failed then
    { reply := .error out.errstr
      created := if created then some out.loop.it else none
      item := none
      state := { st with store := st.store.put cfg out.loop.it }.unlockIf line.locked }
  else
    let last := if out.loop.won then { out.loop.it with tokenSent := true } else out.loop.it
    let s := st.store.put cfg last
    let (kept, s) := if line.locked && !line.noUpdate then s.doItemBump cfg async last else (last, s)
    { reply := .value (mgetHeader out.loop.won it.stale it.tokenSent line.opts out.p)
        (if out.value then some last.content else none) (!line.noReply)
      created := if created then some kept else none
      item := some kept
      state := { st with store := s }.unlockIf line.locked }

/-- `process_mget_command` from the lookup on. -/
def mgetLine (cfg : Settings) (m : Memory) (line : MgetLine) (async : Bool) (s : ItemStore) : MgetResult :=
  let (it, st) := (MgetState.mk s 0 0).lookup cfg line async
  let (got, st) := st.vivified cfg m line it
  match got with
  | none => ⟨.miss line.noReply, none, none, st.unlockIf line.locked⟩
  | some (it, created) =>
    mgetEnd cfg line async created it
      (line.opts.foldl (mgetOption cfg st.store.currentTime created) (.start it line)) st

def processMgetCommand (cfg : Settings) (m : Memory) (tokens : List Bytes) (async : Bool) (s : ItemStore) :
    MgetResult :=
  match parseMget tokens with
  | .error errstr => ⟨.error errstr, none, none, ⟨s, 0, 0⟩⟩
  | .ok line => mgetLine cfg m line async s

theorem processMgetCommand_eq (w : World) (tokens : List Bytes) (c : Conn) :
    c.processMgetCommand w tokens =
      match parseMget tokens with
      | .error errstr => c.outErrstring errstr
      | .ok line =>
        let c := { c with noreply := line.noReply }
        if w.refused c.log then c.outErrstring (w.answer c.log)
        else if w.served c.log then { c with reply := .data, state := .write, writeAndGo := .newCmd }
        else c.outString "EN" := by
  unfold Conn.processMgetCommand parseMget
  dsimp only
  generalize (if ntokens tokens = 3 then token ['s', 'f', 't', 'v'] else tokens.getD 2 []) = opts
  generalize (if ntokens tokens = 3 then 3 else 4) = rtokens
  split
  · rfl
  split
  · rfl
  cases Conn.metaFlagPreparse [] opts with
  | none => rfl
  | some pre =>
    dsimp only
    split
    · rfl
    · rfl

/-! ### The flags that are refused -/

/-- The exptime of an item that the flags have not created, behind them. -/
def exptimeBehind (cfg : Settings) (now exptime : ℕ) (flags : List MetaFlag) : ℕ :=
  flags.foldl (fun e flag =>
    match flag with
    | .ttl (some t) => realtime cfg now t
    | _ => e) exptime

/-- A flag behind others goes to `error`: `T` always reads its token, `N` only for an item that it created, `R` only for
one that was there, has an exptime by then and whose token has not been sent. -/
def FlagRefused (cfg : Settings) (now : ℕ) (created tokenSent : Bool) (exptime : ℕ) (front : List MetaFlag) :
    MetaFlag → Prop
  | .ttl tok => tok = none
  | .vivify tok => created = true ∧ tok = none
  | .recache tok => created = false ∧ tokenSent = false ∧ exptimeBehind cfg now exptime front ≠ 0 ∧ tok = none
  | .echo fits => fits = false
  | .lastAccess | .hit | .noUpdate | .other => False

/-- **Refused.** Some flag goes to `error`. -/
def Refused (cfg : Settings) (now : ℕ) (created tokenSent : Bool) (exptime : ℕ) (flags : List MetaFlag) : Prop :=
  ∃ front flag back, flags = front ++ flag :: back ∧ FlagRefused cfg now created tokenSent exptime front flag

section Loop

variable {cfg : Settings} {now exptime : ℕ} {created tokenSent : Bool}

theorem not_refused_nil : ¬Refused cfg now created tokenSent exptime [] := by
  rintro ⟨front, flag, back, heq, -⟩
  simp at heq

theorem refused_cons (flag : MetaFlag) (flags : List MetaFlag) :
    Refused cfg now created tokenSent exptime (flag :: flags) ↔
      FlagRefused cfg now created tokenSent exptime [] flag ∨
        Refused cfg now created tokenSent (exptimeBehind cfg now exptime [flag]) flags := by
  have hbehind : ∀ front, exptimeBehind cfg now exptime (flag :: front)
      = exptimeBehind cfg now (exptimeBehind cfg now exptime [flag]) front := fun front => rfl
  have hmoved : ∀ front flag', FlagRefused cfg now created tokenSent exptime (flag :: front) flag'
      ↔ FlagRefused cfg now created tokenSent (exptimeBehind cfg now exptime [flag]) front flag' := by
    intro front flag'
    unfold FlagRefused
    rw [hbehind]
  constructor
  · rintro ⟨front, flag', back, heq, href⟩
    cases front with
    | nil =>
      obtain ⟨rfl, rfl⟩ := List.cons.inj heq
      exact .inl href
    | cons f front =>
      obtain ⟨rfl, rfl⟩ := List.cons.inj heq
      exact .inr ⟨front, flag', back, rfl, (hmoved front flag').mp href⟩
  · rintro (href | ⟨front, flag', back, rfl, href⟩)
    · exact ⟨[], flag, flags, rfl, href⟩
    · exact ⟨flag :: front, flag', back, rfl, (hmoved front flag').mpr href⟩

variable {st : MgetLoop}

theorem mgetFlag_of_failed (hst : st.failed = true) (flag : MetaFlag) :
    mgetFlag cfg now created st flag = st := by
  unfold mgetFlag
  exact if_pos hst

theorem foldl_mgetFlag_of_failed (hst : st.failed = true) (flags : List MetaFlag) :
    flags.foldl (mgetFlag cfg now created) st = st := by
  induction flags with
  | nil => rfl
  | cons flag flags ih => rw [List.foldl_cons, mgetFlag_of_failed hst, ih]

/-- One flag: whether it is refused, and what it leaves for the flags behind it. -/
theorem mgetFlag_step (cfg : Settings) (now : ℕ) (hst : st.failed = false)
    (hexp : created = false → st.it.exptime = exptime) (flag : MetaFlag) :
    ((mgetFlag cfg now created st flag).failed = true ↔
        FlagRefused cfg now created st.it.tokenSent exptime [] flag) ∧
      (mgetFlag cfg now created st flag).it.tokenSent = st.it.tokenSent ∧
      (created = false → (mgetFlag cfg now created st flag).failed = false →
        (mgetFlag cfg now created st flag).it.exptime = exptimeBehind cfg now exptime [flag]) := by
  unfold mgetFlag
  rw [if_neg (by rw [hst]; exact Bool.false_ne_true)]
  cases flag with
  | ttl tok => cases tok <;> simp [FlagRefused, exptimeBehind, hst]
  | vivify tok => cases created <;> cases tok <;> simp [FlagRefused, exptimeBehind, hst, hexp]
  | recache tok =>
    cases created with
    | true => simp [FlagRefused, hst]
    | false =>
      have hexp := hexp rfl
      by_cases hread : st.it.tokenSent = false ∧ exptime ≠ 0
      · cases tok with
        | none => simp [FlagRefused, exptimeBehind, hexp, hread]
        | some e =>
          dsimp only
          rw [if_pos ⟨hread.1, rfl, hexp ▸ hread.2⟩]
          split
          · simp [FlagRefused, exptimeBehind, hst, hexp]
          · simp [FlagRefused, exptimeBehind, hst, hexp]
      · rw [not_and_or] at hread
        rcases hread with hread | hread <;> simp [FlagRefused, exptimeBehind, hexp, hst, hread]
  | echo fits =>
    cases fits with
    | false => simp [FlagRefused]
    | true => simpa [FlagRefused, exptimeBehind, hst] using hexp
  | lastAccess => simpa [FlagRefused, exptimeBehind, hst] using hexp
  | hit => simpa [FlagRefused, exptimeBehind, hst] using hexp
  | noUpdate => simpa [FlagRefused, exptimeBehind, hst] using hexp
  | other => simpa [FlagRefused, exptimeBehind, hst] using hexp

theorem foldl_mgetFlag_failed (hst : st.failed = false)
    (hexp : created = false → st.it.exptime = exptime) (flags : List MetaFlag) :
    (flags.foldl (mgetFlag cfg now created) st).failed = true ↔
      Refused cfg now created st.it.tokenSent exptime flags := by
  induction flags generalizing st exptime with
  | nil => simp [hst, not_refused_nil]
  | cons flag flags ih =>
    obtain ⟨hfailed, hsent, hnext⟩ := mgetFlag_step cfg now hst hexp flag
    rw [List.foldl_cons, refused_cons, ← hfailed]
    cases hf : (mgetFlag cfg now created st flag).failed with
    | true => simp [foldl_mgetFlag_of_failed hf, hf]
    | false =>
      rw [ih hf fun hc => hnext hc hf, hsent]
      simp

/-- The loop that prints goes the way of the loop over the flags. -/
theorem foldl_mgetOption_loop (opts : Bytes) (st : MgetPrint) :
    (opts.foldl (mgetOption cfg now created) st).loop
      = (metaFlags opts st.rtokens).foldl (mgetFlag cfg now created) st.loop := by
  induction opts generalizing st with
  | nil => rfl
  | cons o opts ih =>
    rw [List.foldl_cons, metaFlags, List.foldl_cons]
    generalize hloop : mgetFlag cfg now created st.loop (metaFlag o (st.rtokens.getD 0 [])) = loop
    have hstep : (mgetOption cfg now created st o).loop = loop := by
      unfold mgetOption
      dsimp only
      rw [hloop]
      split
      · rename_i hf
        rw [← hloop, mgetFlag_of_failed hf]
      · split <;> rfl
    rw [ih, hstep]
    by_cases hf : loop.failed = true
    · rw [foldl_mgetFlag_of_failed hf, foldl_mgetFlag_of_failed hf]
    · have hrtokens : (mgetOption cfg now created st o).rtokens = tokensBehind o st.rtokens := by
        have hst : st.loop.failed ≠ true := by
          intro hst
          rw [mgetFlag_of_failed hst] at hloop
          rw [← hloop] at hf
          exact hf hst
        unfold mgetOption
        dsimp only
        rw [hloop, if_neg hst, if_neg hf]
      rw [hrtokens]

/-- The command goes to `error` exactly if a flag of its line is refused. -/
theorem mgetPrint_failed_iff (cfg : Settings) (now : ℕ) (it : StrItem) (line : MgetLine)
    (hexp : created = false → it.exptime = exptime) :
    (line.opts.foldl (mgetOption cfg now created) (.start it line)).loop.failed = true ↔
      Refused cfg now created it.tokenSent exptime (metaFlags line.opts line.rtokens) := by
  rw [foldl_mgetOption_loop]
  exact foldl_mgetFlag_failed rfl hexp _

theorem marked_mgetPrint (cfg : Settings) (now : ℕ) (created : Bool) (it : StrItem) (line : MgetLine) :
    Marked it (line.opts.foldl (mgetOption cfg now created) (.start it line)).loop.it := by
  rw [foldl_mgetOption_loop]
  exact marked_foldl cfg now created _ (MgetPrint.start it line).loop

end Loop

/-! ### The lookup -/

namespace ItemStore

/-- `do_item_bump` queues the item and takes a reference for the queue. -/
def queued (cfg : Settings) (async : Bool) (it : StrItem) : Bool :=
  cfg.lruSegmented && !it.active && it.fetched && decide (it.lruid = .cold) && async

variable {cfg : Settings} {s : ItemStore}

theorem doItemBump_refcount (async : Bool) (it : StrItem) :
    (s.doItemBump cfg async it).1.refcount = it.refcount + (queued cfg async it).toNat := by
  have hupdated : ∀ x : StrItem, (s.updated cfg x).refcount = x.refcount := by
    intro x
    unfold updated
    split <;> split <;> rfl
  unfold doItemBump queued
  cases hseg : cfg.lruSegmented with
  | false =>
    simp only [Bool.false_eq_true, if_false, Bool.false_and, Bool.toNat_false, Nat.add_zero]
    unfold doItemUpdate
    split
    · exact hupdated _
    · rfl
  | true =>
    simp only [if_true, Bool.true_and]
    split
    · simp_all
    split
    · simp_all
    split
    · simp_all
    split
    · simp_all
    · simp_all

/-- The references of an item that `do_item_get` finds. -/
def refsGot (cfg : Settings) (doUpdate async : Bool) (it : StrItem) : ℕ :=
  it.refcount + 1 + (doUpdate && queued cfg async it).toNat

theorem doItemGet_refcount {key : Bytes} {doUpdate async : Bool} {it it' : StrItem}
    (hvisible : s.visible cfg key = some it) (hgot : (s.doItemGet cfg key doUpdate async).1 = some it') :
    it'.refcount = refsGot cfg doUpdate async it := by
  have hqueued : queued cfg async { it with refcount := it.refcount + 1 } = queued cfg async it := rfl
  unfold doItemGet at hgot
  rw [find_of_visible hvisible] at hgot
  dsimp only at hgot
  split at hgot
  · exact absurd hgot (by simp)
  · split at hgot
    · rename_i hupdate
      rw [← Option.some.inj hgot, doItemBump_refcount, hqueued, refsGot, hupdate, Bool.true_and]
    · rename_i hupdate
      rw [← Option.some.inj hgot, refsGot, Bool.eq_false_iff.mpr hupdate, Bool.false_and, Bool.toNat_false]

theorem doItemGet_got (hs : s.Sound cfg) (key : Bytes) (doUpdate async : Bool) :
    (s.visible cfg key = none ∧ (s.doItemGet cfg key doUpdate async).1 = none ∧
      Effect cfg s (s.doItemGet cfg key doUpdate async).2 key none s.casId) ∨
    ∃ it it', s.visible cfg key = some it ∧ (s.doItemGet cfg key doUpdate async).1 = some it' ∧
      Accessed s.currentTime (held it) it' ∧ it'.refcount = refsGot cfg doUpdate async it ∧
      Effect cfg s (s.doItemGet cfg key doUpdate async).2 key (some it') s.casId := by
  have hcases := doItemGet_cases hs key doUpdate async
  cases hgot : s.doItemGet cfg key doUpdate async with
  | mk found s' =>
    rw [hgot] at hcases
    cases hcases with
    | miss _ hvisible heff => exact .inl ⟨hvisible, rfl, heff⟩
    | hit it it' _ hvisible hacc hplain heff =>
      exact .inr ⟨it, it', hvisible, rfl, hacc, doItemGet_refcount hvisible (congrArg Prod.fst hgot), heff⟩

theorem Accessed.tokenSent_eq {now : ℕ} {it it' : StrItem} (h : Accessed now it it') :
    it'.tokenSent = it.tokenSent := by
  obtain ⟨time, refcount, lruid, fetched, active, htime, hrefs⟩ := h
  rfl

end ItemStore

namespace MgetState

variable {cfg : Settings} {s : ItemStore} {line : MgetLine} {async : Bool}

/-- The references of an item behind the lookup, which bumps it only if the lock is not kept. -/
def refsBehind (cfg : Settings) (line : MgetLine) (async : Bool) (it : StrItem) : ℕ :=
  refsGot cfg (!line.locked && !line.noUpdate) async it

/-- **Everything the lookup can do**, and whether the lock is still to be given back. -/
inductive Got (cfg : Settings) (s : ItemStore) (line : MgetLine) (async : Bool) : Option StrItem × MgetState → Prop
  | miss (st : MgetState) (hvisible : s.visible cfg line.key = none)
      (hlocks : st.locks = st.unlocks + line.locked.toNat) (heff : Effect cfg s st.store line.key none s.casId) :
      Got cfg s line async (none, st)
  | limited (it : StrItem) (st : MgetState) (hvisible : s.visible cfg line.key = some it)
      (hover : itRefcountLimit < refsBehind cfg line async it % 2 ^ 16) (hlocks : st.locks = st.unlocks) :
      Got cfg s line async (none, st)
  | hit (it it' : StrItem) (st : MgetState) (hvisible : s.visible cfg line.key = some it)
      (hunder : refsBehind cfg line async it % 2 ^ 16 ≤ itRefcountLimit)
      (hlocks : st.locks = st.unlocks + line.locked.toNat) (hacc : Accessed s.currentTime (held it) it')
      (hrefs : it'.refcount = refsBehind cfg line async it)
      (heff : Effect cfg s st.store line.key (some it') s.casId) : Got cfg s line async (some it', st)

theorem lookup_cases (hs : s.Sound cfg) (line : MgetLine) (async : Bool) :
    Got cfg s line async ((MgetState.mk s 0 0).lookup cfg line async) := by
  have hunder : ∀ x : StrItem, ¬overLimit x = true → x.refcount % 2 ^ 16 ≤ itRefcountLimit :=
    fun x hx => not_lt.mp (of_decide_eq_false (Bool.eq_false_iff.mpr hx))
  unfold lookup
  cases hlocked : line.locked with
  | true =>
    rw [if_pos rfl]
    unfold limitedGetLocked doItemGet
    dsimp only [itemLock]
    rcases doItemGet_got hs line.key false false with
      ⟨hvisible, hgot, heff⟩ | ⟨it, it', hvisible, hgot, hacc, hrefs, heff⟩
    · rw [hgot]
      exact .miss _ hvisible (by rw [hlocked]; rfl) heff
    · have hbehind : it'.refcount = refsBehind cfg line async it := by
        rw [hrefs, refsBehind, hlocked]
        rfl
      rw [hgot]
      dsimp only
      split
      · rename_i hover
        exact .limited it _ hvisible (hbehind ▸ of_decide_eq_true hover) rfl
      · rename_i hlow
        exact .hit it it' _ hvisible (hbehind ▸ hunder it' hlow) (by rw [hlocked]; rfl) hacc hbehind heff
  | false =>
    rw [if_neg Bool.false_ne_true]
    unfold limitedGet doItemGet
    dsimp only [itemLock, itemUnlock]
    rcases doItemGet_got hs line.key (!line.noUpdate) async with
      ⟨hvisible, hgot, heff⟩ | ⟨it, it', hvisible, hgot, hacc, hrefs, heff⟩
    · rw [hgot]
      exact .miss _ hvisible (by rw [hlocked]; rfl) heff
    · have hbehind : it'.refcount = refsBehind cfg line async it := by
        rw [hrefs, refsBehind, hlocked]
        rfl
      rw [hgot]
      dsimp only
      split
      · rename_i hover
        exact .limited it _ hvisible (hbehind ▸ of_decide_eq_true hover) rfl
      · rename_i hlow
        exact .hit it it' _ hvisible (hbehind ▸ hunder it' hlow) (by rw [hlocked]; rfl) hacc hbehind heff

end MgetState

/-! ### The whole command -/

section Command

variable {cfg : Settings} {m : Memory} {line : MgetLine} {async : Bool} {s : ItemStore}

/-- Behind the lookup the lock is given back once, if it was to be kept. -/
theorem mgetEnd_locks (cfg : Settings) (line : MgetLine) (async created : Bool) (it : StrItem) (out : MgetPrint)
    (st : MgetState) :
    (mgetEnd cfg line async created it out st).state.locks = st.locks ∧
      (mgetEnd cfg line async created it out st).state.unlocks = st.unlocks + line.locked.toNat := by
  unfold mgetEnd MgetState.unlockIf
  cases line.locked
  · split <;> exact ⟨rfl, rfl⟩
  · split <;> exact ⟨rfl, rfl⟩

theorem vivified_locks (cfg : Settings) (m : Memory) (line : MgetLine) (it : Option StrItem) (st : MgetState) :
    (st.vivified cfg m line it).2.locks = st.locks ∧ (st.vivified cfg m line it).2.unlocks = st.unlocks := by
  unfold MgetState.vivified
  split
  · exact ⟨rfl, rfl⟩
  · split
    · split <;> exact ⟨rfl, rfl⟩
    · exact ⟨rfl, rfl⟩

theorem mgetLine_locks (cfg : Settings) (m : Memory) (line : MgetLine) (async : Bool) (s : ItemStore) :
    (mgetLine cfg m line async s).state.locks = ((MgetState.mk s 0 0).lookup cfg line async).2.locks ∧
    (mgetLine cfg m line async s).state.unlocks
      = ((MgetState.mk s 0 0).lookup cfg line async).2.unlocks + line.locked.toNat := by
  unfold mgetLine
  generalize (MgetState.mk s 0 0).lookup cfg line async = got
  obtain ⟨it, st⟩ := got
  have hlocks := vivified_locks cfg m line it st
  dsimp only
  generalize st.vivified cfg m line it = got at hlocks
  obtain ⟨found, st'⟩ := got
  dsimp only at hlocks ⊢
  rw [← hlocks.1, ← hlocks.2]
  split
  · unfold MgetState.unlockIf
    cases line.locked <;> exact ⟨rfl, rfl⟩
  · exact mgetEnd_locks _ _ _ _ _ _ _

theorem locked_of_vivify (h : line.vivify = true) : line.locked = true :=
  List.any_eq_true.mpr ⟨_, of_decide_eq_true h, by decide⟩

/-- **A failed command changes nothing.**  Every lock is given back; behind an error everything in the table is as it
was, its header with it, and no item that the command created is there. -/
structure ChangesNothing (cfg : Settings) (s : ItemStore) (r : MgetResult) : Prop where
  unlocked : r.state.unlocks = r.state.locks
  stored : ∀ e, r.reply = .error e → r.state.store.assocFind cfg = s.assocFind cfg
  created : ∀ e it, r.reply = .error e → r.created = some it → r.state.store.assocFind cfg it.itemKey ≠ some it

/-- **Harmless.** The lock is not kept for an item above the limit, and no flag is refused once there is an item, be it
found or created. -/
structure Harmless (cfg : Settings) (m : Memory) (line : MgetLine) (async : Bool) (s : ItemStore) : Prop where
  limit : ∀ it, line.locked = true → s.visible cfg line.key = some it →
    MgetState.refsBehind cfg line async it % 2 ^ 16 ≤ itRefcountLimit
  found : ∀ it, s.visible cfg line.key = some it →
    MgetState.refsBehind cfg line async it % 2 ^ 16 ≤ itRefcountLimit →
    ¬Refused cfg s.currentTime false it.tokenSent it.exptime (metaFlags line.opts line.rtokens)
  created : s.visible cfg line.key = none → line.vivify = true →
    doItemAlloc cfg m s.currentTime line.key 0 (realtime cfg s.currentTime 0) 2 ≠ none →
    ¬Refused cfg s.currentTime true false 0 (metaFlags line.opts line.rtokens)

variable {it : StrItem} {st : MgetState}

theorem mgetEnd_no_error {created : Bool} {out : MgetPrint}
    (hout : out.loop.failed = false) (e : String) : (mgetEnd cfg line async created it out st).reply ≠ .error e := by
  unfold mgetEnd
  rw [hout]
  exact fun h => nomatch h

/-- An error behind the loop is never harmless, if it leaves a changed item or a new one. -/
theorem mgetEnd_changesNothing_iff {created : Bool} {out : MgetPrint}
    (hlocks : st.locks = st.unlocks + line.locked.toNat)
    (hleft : (st.store.put cfg out.loop.it).assocFind cfg ≠ s.assocFind cfg ∨
      created = true ∧ (st.store.put cfg out.loop.it).assocFind cfg out.loop.it.itemKey = some out.loop.it) :
    ChangesNothing cfg s (mgetEnd cfg line async created it out st) ↔ ¬out.loop.failed = true := by
  obtain ⟨hl, hu⟩ := mgetEnd_locks cfg line async created it out st
  constructor
  · rintro ⟨-, hstored, hcreated⟩ hfailed
    have hend : mgetEnd cfg line async created it out st = ⟨.error out.errstr,
        if created then some out.loop.it else none, none,
        { st with store := st.store.put cfg out.loop.it }.unlockIf line.locked⟩ := if_pos hfailed
    have hstore : ({ st with store := st.store.put cfg out.loop.it }.unlockIf line.locked).store
        = st.store.put cfg out.loop.it := by
      unfold MgetState.unlockIf
      split <;> rfl
    rw [hend] at hstored hcreated
    dsimp only at hstored hcreated
    rw [hstore] at hstored hcreated
    rcases hleft with hleft | ⟨hc, hleft⟩
    · exact hleft (hstored _ rfl)
    · exact hcreated _ _ rfl (if_pos hc) hleft
  · intro hfailed
    have hno : ∀ e, (mgetEnd cfg line async created it out st).reply ≠ .error e :=
      mgetEnd_no_error (Bool.eq_false_iff.mpr hfailed)
    exact ⟨by rw [hl, hu, hlocks], fun e he => absurd he (hno e), fun e _ he => absurd he (hno e)⟩

theorem mgetLine_found
    (hlook : (MgetState.mk s 0 0).lookup cfg line async = (some it, st)) :
    mgetLine cfg m line async s = mgetEnd cfg line async false it
      (line.opts.foldl (mgetOption cfg st.store.currentTime false) (.start it line)) st := by
  unfold mgetLine
  rw [hlook]
  rfl

theorem mgetLine_miss (hlook : (MgetState.mk s 0 0).lookup cfg line async = (none, st))
    (hnone : line.vivify = false ∨
      doItemAlloc cfg m st.store.currentTime line.key 0 (realtime cfg st.store.currentTime 0) 2 = none) :
    (mgetLine cfg m line async s).reply = .miss line.noReply := by
  have hviv : st.vivified cfg m line none = (none, st) := by
    unfold MgetState.vivified
    rcases hnone with hnone | hnone
    · rw [hnone]
      rfl
    · rw [hnone]
      exact ite_self _
  unfold mgetLine
  rw [hlook]
  dsimp only
  rw [hviv]

theorem mgetLine_created (hlook : (MgetState.mk s 0 0).lookup cfg line async = (none, st))
    (hvivify : line.vivify = true)
    (halloc : doItemAlloc cfg m st.store.currentTime line.key 0 (realtime cfg st.store.currentTime 0) 2 = some it) :
    mgetLine cfg m line async s =
      mgetEnd cfg line async true (st.store.doItemLink cfg (it.writeData 0 crlf)).1
        (line.opts.foldl (mgetOption cfg (st.store.doItemLink cfg (it.writeData 0 crlf)).2.currentTime true)
          (.start (st.store.doItemLink cfg (it.writeData 0 crlf)).1 line))
        { st with store := (st.store.doItemLink cfg (it.writeData 0 crlf)).2 } := by
  have hviv : st.vivified cfg m line none = (some ((st.store.doItemLink cfg (it.writeData 0 crlf)).1, true),
      { st with store := (st.store.doItemLink cfg (it.writeData 0 crlf)).2 }) := by
    unfold MgetState.vivified
    rw [halloc, hvivify]
    rfl
  unfold mgetLine
  rw [hlook]
  dsimp only
  rw [hviv]

theorem changesNothing_of_miss {r : MgetResult} {quiet : Bool} (hlocks : r.state.unlocks = r.state.locks)
    (hreply : r.reply = .miss quiet) : ChangesNothing cfg s r := by
  have hno : ∀ e, r.reply ≠ .error e := by
    intro e
    rw [hreply]
    exact fun h => nomatch h
  exact ⟨hlocks, fun e he => absurd he (hno e), fun e _ he => absurd he (hno e)⟩

theorem found_changesNothing_iff {it' : StrItem}
    (hvisible : s.visible cfg line.key = some it) (hlocks : st.locks = st.unlocks + line.locked.toNat)
    (hacc : Accessed s.currentTime (held it) it') (heff : Effect cfg s st.store line.key (some it') s.casId) :
    ChangesNothing cfg s (mgetEnd cfg line async false it'
        (line.opts.foldl (mgetOption cfg st.store.currentTime false) (.start it' line)) st) ↔
      ¬Refused cfg s.currentTime false it.tokenSent it.exptime (metaFlags line.opts line.rtokens) := by
  have hmark := marked_mgetPrint cfg st.store.currentTime false it' line
  have hexp : it'.exptime = it.exptime := hacc.exptime_eq
  have hsent : it'.tokenSent = it.tokenSent := hacc.tokenSent_eq
  have hfailed := mgetPrint_failed_iff cfg st.store.currentTime it' line (fun _ : false = false => hexp)
  rw [hsent, heff.currentTime_eq] at hfailed
  rw [heff.currentTime_eq] at hmark ⊢
  rw [← hfailed]
  refine mgetEnd_changesNothing_iff hlocks (.inl fun hsame => ?_)
  have hput := effect_mark heff.sound heff.find_self hmark
  have hfind := hput.find_self
  rw [hsame, find_of_visible hvisible] at hfind
  have hcount := congrArg StrItem.refcount (Option.some.inj hfind)
  rw [hmark.refcount_eq] at hcount
  have hle : it.refcount + 1 ≤ it'.refcount := hacc.refcount_le
  omega

theorem created_changesNothing_iff (hlocks : st.locks = st.unlocks + line.locked.toNat)
    (heff : Effect cfg s st.store line.key none s.casId) (hit : IsNewItem cfg line.key 0 0 2 it) :
    ChangesNothing cfg s (mgetEnd cfg line async true (st.store.doItemLink cfg it).1
        (line.opts.foldl (mgetOption cfg (st.store.doItemLink cfg it).2.currentTime true)
          (.start (st.store.doItemLink cfg it).1 line))
        { st with store := (st.store.doItemLink cfg it).2 }) ↔
      ¬Refused cfg s.currentTime true false 0 (metaFlags line.opts line.rtokens) := by
  obtain ⟨hfst, hlink⟩ := effect_doItemLink heff.sound (hit.key_eq.symm ▸ heff.find_self) hit.hasCas_eq
    (le_of_eq hit.nbytes_eq.symm)
  rw [hit.key_eq] at hlink
  rw [hfst]
  generalize hx : linkedItem cfg st.store.casId st.store.currentTime it = x at hlink
  have hsent : x.tokenSent = false := by
    rw [← hx]
    exact hit.tokenSent_eq
  have hmark := marked_mgetPrint cfg s.currentTime true x line
  have hfailed := mgetPrint_failed_iff cfg s.currentTime x line
    (fun h : true = false => (nomatch h : x.exptime = 0))
  rw [hsent] at hfailed
  rw [hlink.currentTime_eq, heff.currentTime_eq, ← hfailed]
  refine mgetEnd_changesNothing_iff hlocks (.inr ⟨rfl, ?_⟩)
  have hput := effect_mark hlink.sound hlink.find_self hmark
  rw [Sound.key_eq hput.find_self]
  exact hput.find_self

theorem mgetLine_changesNothing_iff (hs : s.Sound cfg) :
    ChangesNothing cfg s (mgetLine cfg m line async s) ↔ Harmless cfg m line async s := by
  have hgot := MgetState.lookup_cases hs line async
  obtain ⟨hl, hu⟩ := mgetLine_locks cfg m line async s
  generalize hlook : (MgetState.mk s 0 0).lookup cfg line async = got at hgot hl hu
  cases hgot with
  | limited it st hvisible hover hlocks =>
    have hfound : ∀ x, s.visible cfg line.key = some x →
        ¬MgetState.refsBehind cfg line async x % 2 ^ 16 ≤ itRefcountLimit := by
      intro x hx
      obtain rfl : it = x := Option.some.inj (hvisible.symm.trans hx)
      omega
    cases hlocked : line.locked with
    | true =>
      -- the lookup has given the lock back already
      refine ⟨fun h => absurd h.unlocked ?_, fun h => absurd (h.limit it hlocked hvisible) (hfound it hvisible)⟩
      rw [hl, hu, hlocks, hlocked]
      simp
    | false =>
      have hnoviv : line.vivify = false := Bool.eq_false_iff.mpr fun hv =>
        Bool.false_ne_true (hlocked.symm.trans (locked_of_vivify hv))
      refine iff_of_true (changesNothing_of_miss ?_ (mgetLine_miss hlook (.inl hnoviv))) ⟨?_, ?_, ?_⟩
      · rw [hl, hu, hlocks, hlocked]
        rfl
      · intro x hlocked'
        exact absurd (hlocked.symm.trans hlocked') Bool.false_ne_true
      · intro x hx hlow
        exact absurd hlow (hfound x hx)
      · intro hnone
        exact absurd (hvisible.symm.trans hnone) (Option.some_ne_none it)
  | miss st hvisible hlocks heff =>
    have hnothing : ∀ x, s.visible cfg line.key ≠ some x := by
      intro x hx
      exact Option.some_ne_none x (hx.symm.trans hvisible)
    have hrest : Harmless cfg m line async s ↔ (line.vivify = true →
        doItemAlloc cfg m s.currentTime line.key 0 (realtime cfg s.currentTime 0) 2 ≠ none →
        ¬Refused cfg s.currentTime true false 0 (metaFlags line.opts line.rtokens)) :=
      ⟨fun h => h.created hvisible,
        fun h => ⟨fun x _ hx => absurd hx (hnothing x), fun x hx => absurd hx (hnothing x), fun _ => h⟩⟩
    rw [hrest]
    by_cases hcreated : line.vivify = true ∧
        doItemAlloc cfg m s.currentTime line.key 0 (realtime cfg s.currentTime 0) 2 ≠ none
    · obtain ⟨hvivify, halloc⟩ := hcreated
      obtain ⟨it, hit⟩ := Option.ne_none_iff_exists'.mp halloc
      have hnew := (doItemAlloc_eq_some hit).1.writeData 0 crlf
      rw [mgetLine_created hlook hvivify (by rw [heff.currentTime_eq]; exact hit),
        created_changesNothing_iff hlocks heff hnew]
      exact ⟨fun h _ _ => h, fun h => h hvivify halloc⟩
    · refine iff_of_true (changesNothing_of_miss ?_ (mgetLine_miss hlook ?_)) fun hv ha => absurd ⟨hv, ha⟩ hcreated
      · rw [hl, hu, hlocks]
      · rw [heff.currentTime_eq]
        rw [not_and_or, not_not] at hcreated
        exact hcreated.imp_left Bool.eq_false_iff.mpr
  | hit it it' st hvisible hunder hlocks hacc hrefs heff =>
    have hself : ∀ x, s.visible cfg line.key = some x → it = x := fun x hx =>
      Option.some.inj (hvisible.symm.trans hx)
    rw [mgetLine_found hlook, found_changesNothing_iff hvisible hlocks hacc heff]
    refine ⟨fun h => ⟨?_, ?_, ?_⟩, fun h => h.found it hvisible hunder⟩
    · intro x hlocked hx
      rw [← hself x hx]
      exact hunder
    · intro x hx hlow
      rw [← hself x hx]
      exact h
    · intro hnone
      exact absurd (hvisible.symm.trans hnone) (Option.some_ne_none it)

end Command

/-! ### The command of the store -/

theorem any_metaFlags (p : MetaFlag → Bool) (q : UInt8 → Bool) (h : ∀ o tok, p (metaFlag o tok) = q o)
    (opts : Bytes)
    (rtokens : List Bytes) : (metaFlags opts rtokens).any p = opts.any q := by
  induction opts generalizing rtokens with
  | nil => rfl
  | cons o opts ih => rw [metaFlags, List.any_cons, List.any_cons, h, ih]

theorem locks_metaFlag (o : UInt8) (tok : Bytes) :
    (metaFlag o tok).locks = decide (o ∈ token ['N', 'T', 'R', 'l', 'h']) := by
  unfold metaFlag
  repeat' split
  all_goals simp_all [MetaFlag.locks, token]

theorem isVivify_metaFlag (o : UInt8) (tok : Bytes) :
    (metaFlag o tok).isVivify = (o == Char.toUInt8 'N') := by
  unfold metaFlag
  repeat' split
  all_goals simp_all [MetaFlag.isVivify]

theorem noUpdate_metaFlag (o : UInt8) (tok : Bytes) :
    (metaFlag o tok == .noUpdate) = (o == Char.toUInt8 'u') := by
  unfold metaFlag
  repeat' split
  all_goals simp_all <;> decide

def MgetResult.released (cfg : Settings) (r : MgetResult) : ItemStore :=
  match r.item with
  | none => r.state.store
  | some it => (r.state.store.doItemRemove cfg it).2

theorem unlockIf_store (locked : Bool) (st : MgetState) : (st.unlockIf locked).store = st.store := by
  unfold MgetState.unlockIf
  split <;> rfl

section Store

variable {cfg : Settings} {m : Memory} {line : MgetLine} {async : Bool} {s : ItemStore}

theorem locks_metaFlags (line : MgetLine) : (metaFlags line.opts line.rtokens).any MetaFlag.locks = line.locked :=
  any_metaFlags _ _ locks_metaFlag _ _

theorem any_beq_eq (a : UInt8) (opts : Bytes) : opts.any (fun o => o == a) = decide (a ∈ opts) := by
  rw [Bool.eq_iff_iff]
  simp

theorem isVivify_metaFlags (line : MgetLine) :
    (metaFlags line.opts line.rtokens).any MetaFlag.isVivify = line.vivify :=
  (any_metaFlags _ _ isVivify_metaFlag _ _).trans (any_beq_eq _ _)

theorem noUpdate_metaFlags (line : MgetLine) :
    (metaFlags line.opts line.rtokens).contains .noUpdate = line.noUpdate := by
  rw [List.contains_eq_any_beq, show (fun f => MetaFlag.noUpdate == f) = (fun f => f == MetaFlag.noUpdate) from
    funext fun f => BEq.comm]
  exact (any_metaFlags _ _ noUpdate_metaFlag _ _).trans (any_beq_eq _ _)

theorem mgetLoop_spec (cfg : Settings) (line : MgetLine) (now : ℕ) (created : Bool) (it : StrItem) :
    ∃ loop, (line.opts.foldl (mgetOption cfg now created) (.start it line)).loop = loop ∧
      (mgetLoop cfg now created it (metaFlags line.opts line.rtokens)).failed = loop.failed ∧
      (loop.failed = true → (mgetLoop cfg now created it (metaFlags line.opts line.rtokens)).it = loop.it) ∧
      (loop.failed = false → (mgetLoop cfg now created it (metaFlags line.opts line.rtokens)).it
        = if loop.won then { loop.it with tokenSent := true } else loop.it) := by
  have hmark : ∀ loop : MgetLoop,
      let loop' := if loop.failed = false ∧ loop.won = true then
          { loop with it := { loop.it with tokenSent := true } }
        else loop
      loop'.failed = loop.failed ∧ (loop.failed = true → loop'.it = loop.it) ∧
        (loop.failed = false → loop'.it = if loop.won then { loop.it with tokenSent := true } else loop.it) := by
    rintro ⟨it, won, failed⟩
    cases failed <;> cases won <;> simp
  exact ⟨_, foldl_mgetOption_loop _ _, hmark _⟩

theorem mgetEnd_released (created : Bool) (it : StrItem) (st : MgetState) :
    (mgetEnd cfg line async created it
        (line.opts.foldl (mgetOption cfg st.store.currentTime created) (.start it line)) st).released cfg =
      let loop := mgetLoop cfg st.store.currentTime created it (metaFlags line.opts line.rtokens)
      if loop.failed then st.store.put cfg loop.it
      else (st.store.put cfg loop.it).mgetFinish cfg (metaFlags line.opts line.rtokens) async loop.it := by
  obtain ⟨_, rfl, hfailed, hbad, hgood⟩ := mgetLoop_spec cfg line st.store.currentTime created it
  generalize line.opts.foldl (mgetOption cfg st.store.currentTime created) (.start it line) = out at hfailed hbad hgood
  dsimp only
  generalize mgetLoop cfg st.store.currentTime created it (metaFlags line.opts line.rtokens) =
    loop at hfailed hbad hgood
  rw [hfailed]
  unfold mgetEnd
  split
  · rename_i hf
    rw [hbad hf]
    exact unlockIf_store _ _
  · rename_i hf
    rw [hgood (Bool.eq_false_iff.mpr hf)]
    dsimp only
    generalize (if out.loop.won = true then { out.loop.it with tokenSent := true } else out.loop.it) = last
    unfold mgetFinish
    rw [locks_metaFlags, noUpdate_metaFlags]
    simp only [MgetResult.released, unlockIf_store]
    cases line.locked && !line.noUpdate
    · rfl
    · rfl

theorem doItemGet_async (key : Bytes) (async : Bool) :
    s.doItemGet cfg key false async = s.doItemGet cfg key false false := by
  unfold doItemGet
  rfl

theorem lookup_eq : (((MgetState.mk s 0 0).lookup cfg line async).1,
      ((MgetState.mk s 0 0).lookup cfg line async).2.store)
    = s.limitedGet cfg line.key (!line.locked && !line.noUpdate) async := by
  unfold MgetState.lookup limitedGet
  cases line.locked with
  | true =>
    rw [if_pos rfl, Bool.not_true, Bool.false_and, doItemGet_async]
    unfold MgetState.limitedGetLocked MgetState.doItemGet
    dsimp only [MgetState.itemLock]
    rcases s.doItemGet cfg line.key false false with ⟨_ | it, s'⟩
    · rfl
    · dsimp only
      split <;> rfl
  | false =>
    rw [if_neg Bool.false_ne_true, Bool.not_false, Bool.true_and]
    unfold MgetState.limitedGet MgetState.doItemGet
    dsimp only [MgetState.itemLock, MgetState.itemUnlock]
    rcases s.doItemGet cfg line.key (!line.noUpdate) async with ⟨_ | it, s'⟩
    · rfl
    · dsimp only
      split <;> rfl

/-- **The command of the store.**  When the reply has been sent, the store is the one that `processMget` leaves, above
the limit on references too. -/
theorem mgetLine_released : (mgetLine cfg m line async s).released cfg
    = (s.processMget cfg m line.key (metaFlags line.opts line.rtokens) async).2 := by
  unfold processMget mgetItem mgetLine
  rw [locks_metaFlags, noUpdate_metaFlags, isVivify_metaFlags, ← lookup_eq]
  generalize (MgetState.mk s 0 0).lookup cfg line async = got
  obtain ⟨found, st⟩ := got
  cases found with
  | some it => exact mgetEnd_released false it st
  | none =>
    unfold MgetState.vivified
    dsimp only
    cases line.vivify with
    | false => exact unlockIf_store _ _
    | true =>
      simp only [if_true]
      cases doItemAlloc cfg m st.store.currentTime line.key 0 (realtime cfg st.store.currentTime 0) 2 with
      | none => exact unlockIf_store _ _
      | some it => exact mgetEnd_released true _ _

end Store

/-- **A failed meta get changes nothing** exactly if its line is rejected before the lookup or is harmless: the lock is
not kept for an item above the limit on references, and no flag is refused once an item has been found or created. -/
theorem failed_mget_iff {cfg : Settings} {s : ItemStore} (hs : s.Sound cfg) (m : Memory) (tokens : List Bytes)
    (async : Bool) : ChangesNothing cfg s (processMgetCommand cfg m tokens async s) ↔
      ∀ line, parseMget tokens = .ok line → Harmless cfg m line async s := by
  unfold processMgetCommand
  cases parseMget tokens with
  | error errstr =>
    refine iff_of_true ⟨rfl, fun _ _ => rfl, fun _ _ _ h => nomatch h⟩ ?_
    intro line h
    cases h
  | ok line =>
    rw [mgetLine_changesNothing_iff hs]
    refine ⟨fun h line' hline => ?_, fun h => h line rfl⟩
    rw [← Except.ok.inj hline]
    exact h

/-- An empty item under the key `k`, which the hash table and `others` hold. -/
def sharedItem (others : ℕ) : StrItem :=
  { time := 0, exptime := 0, nbytes := 2, refcount := others, nkey := 1, lruid := .hot, linked := false, hasCas := true
    cflags := false, fetched := false, active := false, tokenSent := false, stale := false, chunks := none
    data := List.replicate 8 0 ++ [107, 0, 13, 10], data_length := rfl }

def oneItem (others : ℕ) : ItemStore := ((ItemStore.start 1 0 100).doItemLink smallChunks (sharedItem others)).2

theorem sound_oneItem (others : ℕ) : (oneItem others).Sound smallChunks :=
  (effect_doItemLink (sound_start smallChunks 1 0 100) (assocFind_start smallChunks 1 0 100 _) rfl le_rfl).2.sound

/-- `mg k ss` is answered with an error, and nothing changes. -/
theorem failed_mget_duplicate :
    (processMgetCommand smallChunks zeroMemory [token ['m', 'g'], token ['k'], token ['s', 's']] false
        (oneItem 0)).reply = .error "CLIENT_ERROR invalid or duplicate flag" ∧
      ChangesNothing smallChunks (oneItem 0)
        (processMgetCommand smallChunks zeroMemory [token ['m', 'g'], token ['k'], token ['s', 's']] false
          (oneItem 0)) := by
  refine ⟨rfl, (failed_mget_iff (sound_oneItem 0) _ _ _).mpr fun line hline => ?_⟩
  have hrefused : parseMget [token ['m', 'g'], token ['k'], token ['s', 's']]
      = .error "CLIENT_ERROR invalid or duplicate flag" := rfl
  rw [hrefused] at hline
  cases hline

/-- `mg k T x` is answered with an error and keeps a reference for good; `mg k T 5` on an item above the limit gives the
lock back twice. -/
theorem failed_mget_leaks :
    (processMgetCommand smallChunks zeroMemory [token ['m', 'g'], token ['k'], token ['T'], token ['x']] false
        (oneItem 0)).reply = .error "CLIENT_ERROR bad tokens in command line format" ∧
      ((oneItem 0).assocFind smallChunks (token ['k'])).map StrItem.refcount = some 1 ∧
      ((processMgetCommand smallChunks zeroMemory [token ['m', 'g'], token ['k'], token ['T'], token ['x']] false
        (oneItem 0)).state.store.assocFind smallChunks (token ['k'])).map StrItem.refcount = some 2 ∧
      (processMgetCommand smallChunks zeroMemory [token ['m', 'g'], token ['k'], token ['T'], token ['5']] false
        (oneItem 60000)).state.locks = 1 ∧
      (processMgetCommand smallChunks zeroMemory [token ['m', 'g'], token ['k'], token ['T'], token ['5']] false
        (oneItem 60000)).state.unlocks = 2 := by
  decide +kernel

end BmcCache
