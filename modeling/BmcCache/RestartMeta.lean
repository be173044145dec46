import BmcCache.NumberParsing
import Mathlib.Data.List.Induction
import Mathlib.Data.UInt

/-!
# Restart metadata

`_mc_meta_load_cb` of memcached.c decides from the lines of a metadata file whether the memory of an earlier run is
used again, and loads what that run left: the flush markers, the CAS counter, the logger's id and the hash power.

* `restartGetKv` reads one line of the file, `metaLoop` is the loop of the callback over it;
* `keyLines` lists the lines with one of the seventeen keys, `acceptedFront` those before the first rejected one;
* a value is assigned as its line is read, the lines are counted, not the keys, and a size is compared in the 32 bits of
  the setting: `AllOrNothing` fails for a file that repeats keys, for one with a longer number, and for a rejected file
  whose accepted lines had changed a global (`metadata_all_or_nothing_iff`).
-/

namespace BmcCache

open List

/-! ### Numbers -/

def hexDigit (b : UInt8) : Option ℕ :=
  if 48 ≤ b ∧ b ≤ 57 then some (b.toNat - 48)
  else if 97 ≤ b ∧ b ≤ 102 then some (b.toNat - 87)
  else if 65 ≤ b ∧ b ≤ 70 then some (b.toNat - 55)
  else none

/-- What `strtoull` reads in base sixteen: `0x` is skipped in front of a digit only. -/
def strtoHexNumber (str : Bytes) : Option (Bool × ℕ × Bytes) :=
  let s := str.dropWhile isSpace
  let negative := decide (s.head? = some 45)
  let s := if s.head? = some 45 ∨ s.head? = some 43 then s.tail else s
  let s := match s with
    | 48 :: x :: d :: rest => if (x = 120 ∨ x = 88) ∧ (hexDigit d).isSome then d :: rest else s
    | _ => s
  let digits := s.takeWhile (fun b => (hexDigit b).isSome)
  if digits = [] then none
  else some (negative, digits.foldl (fun v b => 16 * v + (hexDigit b).getD 0) 0,
    s.dropWhile (fun b => (hexDigit b).isSome))

def safeStrtoullHex (str : Bytes) : Option ℕ :=
  match strtoHexNumber str with
  | none => none
  | some (negative, m, endptr) =>
    let ull := if negative then (2 ^ 64 - m) % 2 ^ 64 else m
    if 2 ^ 64 ≤ m then none
    else if endsNumber endptr then if 2 ^ 63 ≤ ull ∧ 45 ∈ str then none else some ull
    else none

/-! ### The file -/

/-- A line of the metadata file without its newline, with what the code takes from elsewhere while it handles the line:
the time of day, and the bytes `restart_get_kv` finds behind a line that has no space. -/
structure FileLine where
  text : Bytes
  behind : Bytes
  now : ℤ

/-- What `restart_get_kv` returns: the key and the value of a `RESTART_OK`, or another result. -/
inductive KvRet where
  | ok (key val : Bytes) (now : ℤ)
  | done
  | notag
  | badline

/-- A C string ends at its first NUL byte. -/
def cString (str : Bytes) : Bytes := str.takeWhile (· ≠ 0)

/-- `restart_get_kv`: `T` names the callback of the lines that follow, `K` is a key and a value. -/
def restartGetKv (tags : List Bytes) : List FileLine → KvRet × List FileLine
  | [] => (.done, [])
  | line :: rest =>
    match line.text with
    | 84 :: tag => (if cString tag ∈ tags then .done else .notag, rest)
    | 75 :: text =>
      let key := text.takeWhile (· ≠ 32)
      let val := if 32 ∈ text then (text.dropWhile (· ≠ 32)).tail else line.behind
      (.ok (cString key) (cString val) line.now, rest)
    | _ => (.badline, rest)

/-- The keys of the metadata, in the order of `opts`. -/
inductive MetaKey where
  | mmapOldbase
  | maxbytes
  | chunkSize
  | itemSizeMax
  | slabChunkSizeMax
  | slabPageSize
  | slabConfig
  | useCas
  | slabReassign
  | currentCas
  | oldestCas
  | oldestLive
  | loggerGid
  | currentTime
  | stopTime
  | processStarted
  | hashpower
  deriving DecidableEq, Repr

namespace MetaKey

def name : MetaKey → Bytes
  | mmapOldbase => token "mmap_oldbase".toList
  | maxbytes => token "maxbytes".toList
  | chunkSize => token "chunk_size".toList
  | itemSizeMax => token "item_size_max".toList
  | slabChunkSizeMax => token "slab_chunk_size_max".toList
  | slabPageSize => token "slab_page_size".toList
  | slabConfig => token "slab_config".toList
  | useCas => token "use_cas".toList
  | slabReassign => token "slab_reassign".toList
  | currentCas => token "current_cas".toList
  | oldestCas => token "oldest_cas".toList
  | oldestLive => token "oldest_live".toList
  | loggerGid => token "logger_gid".toList
  | currentTime => token "current_time".toList
  | stopTime => token "stop_time".toList
  | processStarted => token "process_started".toList
  | hashpower => token "hashpower".toList

def opts : List MetaKey :=
  [mmapOldbase, maxbytes, chunkSize, itemSizeMax, slabChunkSizeMax, slabPageSize, slabConfig, useCas, slabReassign,
    currentCas, oldestCas, oldestLive, loggerGid, currentTime, stopTime, processStarted, hashpower]

/-- The search of `opts` for a key. -/
def find (key : Bytes) : Option MetaKey := opts.find? (fun k => k.name == key)

theorem find_name (k : MetaKey) : find k.name = some k := by
  cases k <;> decide +kernel

theorem find_eq_some {key : Bytes} {k : MetaKey} : find key = some k ↔ key = k.name := by
  constructor
  · intro h
    rw [find] at h
    have hname := find?_some h
    exact (beq_iff_eq.mp hname).symm
  · rintro rfl
    exact find_name k

end MetaKey

/-! ### The callback -/

structure RestartSettings where
  maxbytes : UInt64
  chunkSize : ℤ
  itemSizeMax : ℤ
  slabChunkSizeMax : ℤ
  slabPageSize : ℤ
  slabConfig : Bytes
  useCas : Bool
  slabReassign : Bool

structure RestartGlobals where
  oldestLive : UInt32
  oldestCas : UInt64
  casId : UInt64
  loggerGid : UInt64
  hashpowerInit : ℤ
  deriving DecidableEq

/-- `struct _mc_meta_data`, as far as the callback writes it. -/
structure MetaData where
  oldBase : ℕ
  timeDelta : ℤ
  processStarted : ℕ
  currentTime : ℕ

/-- The variables of `_mc_meta_load_cb`. -/
structure MetaLoad where
  globals : RestartGlobals
  info : MetaData
  linesSeen : ℕ
  reuseMmap : ℤ

namespace MetaLoad

def reject (s : MetaLoad) : MetaLoad := { s with reuseMmap := -1 }

def check (s : MetaLoad) (same : Bool) : MetaLoad := if same then s else s.reject

def assign {α : Type} (s : MetaLoad) (parsed : Option α) (f : α → MetaLoad) : MetaLoad :=
  match parsed with
  | none => s.reject
  | some v => f v

end MetaLoad

/-- `val_bool` where `is_bool` holds. -/
def metaBool (val : Bytes) : Option Bool :=
  if val = token "false".toList then some false else if val = token "true".toList then some true else none

/-- The `switch` of the callback. A failed parse leaves zero in `old_base`; `logger_set_gid` adds. -/
def loadKey (cfg : RestartSettings) (val : Bytes) (now : ℤ) (s : MetaLoad) : MetaKey → MetaLoad
  | .mmapOldbase =>
    match safeStrtoullHex val with
    | none => { s with info.oldBase := 0 }.reject
    | some v => { s with info.oldBase := v }
  | .maxbytes => s.check ((safeStrtoll val).any (fun v => UInt64.ofInt v == cfg.maxbytes))
  | .chunkSize => s.check ((safeStrtol val).any (· == cfg.chunkSize))
  | .itemSizeMax => s.check ((safeStrtol val).any (· == cfg.itemSizeMax))
  | .slabChunkSizeMax => s.check ((safeStrtol val).any (· == cfg.slabChunkSizeMax))
  | .slabPageSize => s.check ((safeStrtol val).any (· == cfg.slabPageSize))
  | .slabConfig => s.check (val == cfg.slabConfig)
  | .useCas => s.check ((metaBool val).any (· == cfg.useCas))
  | .slabReassign => s.check ((metaBool val).any (· == cfg.slabReassign))
  | .currentCas => s.assign (safeStrtoull val) fun v => { s with globals.casId := UInt64.ofNat v }
  | .oldestCas => s.assign (safeStrtoull val) fun v => { s with globals.oldestCas := UInt64.ofNat v }
  | .oldestLive => s.assign (safeStrtoul val) fun v => { s with globals.oldestLive := UInt32.ofNat v }
  | .loggerGid =>
    s.assign (safeStrtoull val) fun v => { s with globals.loggerGid := s.globals.loggerGid + UInt64.ofNat v }
  | .processStarted => s.assign (safeStrtoull val) fun v => { s with info.processStarted := v }
  | .currentTime => s.assign (safeStrtoul val) fun v => { s with info.currentTime := v }
  | .stopTime => s.assign (safeStrtoll val) fun v =>
    let s := { s with info.timeDelta := now - v }
    if now - v ≤ 0 then s.reject else s
  | .hashpower => s.assign (safeStrtoul val) fun v => { s with globals.hashpowerInit := toInt32 v }

/-- The loop of `_mc_meta_load_cb`: an unknown key is skipped, a rejected line ends the loop. -/
def metaLoop (cfg : RestartSettings) (tags : List Bytes) : List FileLine → MetaLoad → MetaLoad
  | [], s => s
  | line :: rest, s =>
    match (restartGetKv tags (line :: rest)).1 with
    | .ok key val now =>
      match MetaKey.find key with
      | none => metaLoop cfg tags rest s
      | some k =>
        let s := loadKey cfg val now { s with linesSeen := s.linesSeen + 1 } k
        if s.reuseMmap ≠ 0 then s else metaLoop cfg tags rest s
    | _ => s

def restartRequiredMeta : ℕ := 17

/-- `_mc_meta_load_cb` on the lines that are left of the file: its result, and what it leaves in the globals and in
`meta`. -/
def mcMetaLoadCb (cfg : RestartSettings) (tags : List Bytes) (file : List FileLine) (g : RestartGlobals)
    (info : MetaData) : ℤ × RestartGlobals × MetaData :=
  let s := metaLoop cfg tags file
    { globals := g, info := { info with processStarted := 0, timeDelta := 0, currentTime := 0 }
      linesSeen := 0, reuseMmap := 0 }
  (if s.linesSeen < restartRequiredMeta then -1 else s.reuseMmap, s.globals, s.info)

/-! ### The lines of a file -/

/-- A line that `restart_get_kv` delivers. -/
structure KvLine where
  key : Bytes
  val : Bytes
  now : ℤ

/-- The lines that `restart_get_kv` delivers until it returns something else than `RESTART_OK`. -/
def delivered (tags : List Bytes) : List FileLine → List KvLine
  | [] => []
  | line :: rest =>
    match (restartGetKv tags (line :: rest)).1 with
    | .ok key val now => ⟨key, val, now⟩ :: delivered tags rest
    | _ => []

/-- What a line with the key does to the globals, where its value is `live` as a `uint32_t`, `big` as a `uint64_t` and
`power` as an `int`. -/
def MetaKey.put (live : UInt32) (big : UInt64) (power : ℤ) (g : RestartGlobals) : MetaKey → RestartGlobals
  | .currentCas => { g with casId := big }
  | .oldestCas => { g with oldestCas := big }
  | .oldestLive => { g with oldestLive := live }
  | .loggerGid => { g with loggerGid := g.loggerGid + big }
  | .hashpower => { g with hashpowerInit := power }
  | _ => g

structure KeyLine where
  key : MetaKey
  val : Bytes
  now : ℤ

def KvLine.known (l : KvLine) : Option KeyLine := (MetaKey.find l.key).map fun k => ⟨k, l.val, l.now⟩

def keyLines (tags : List Bytes) (file : List FileLine) : List KeyLine :=
  (delivered tags file).filterMap KvLine.known

namespace KeyLine

/-- A line that the callback does not reject. -/
def accepted (cfg : RestartSettings) (l : KeyLine) : Bool :=
  match l.key with
  | .mmapOldbase => (safeStrtoullHex l.val).isSome
  | .maxbytes => (safeStrtoll l.val).any (fun v => UInt64.ofInt v == cfg.maxbytes)
  | .chunkSize => (safeStrtol l.val).any (· == cfg.chunkSize)
  | .itemSizeMax => (safeStrtol l.val).any (· == cfg.itemSizeMax)
  | .slabChunkSizeMax => (safeStrtol l.val).any (· == cfg.slabChunkSizeMax)
  | .slabPageSize => (safeStrtol l.val).any (· == cfg.slabPageSize)
  | .slabConfig => l.val == cfg.slabConfig
  | .useCas => (metaBool l.val).any (· == cfg.useCas)
  | .slabReassign => (metaBool l.val).any (· == cfg.slabReassign)
  | .currentCas | .oldestCas | .loggerGid | .processStarted => (safeStrtoull l.val).isSome
  | .oldestLive | .currentTime | .hashpower => (safeStrtoul l.val).isSome
  | .stopTime => (safeStrtoll l.val).any (fun v => decide (0 < l.now - v))

/-- **A good line.** Its value parses; that of a configuration key denotes the running configuration's, and a stop time
is in the past. -/
def Good (cfg : RestartSettings) (l : KeyLine) : Prop :=
  match l.key with
  | .maxbytes => Denotes l.val cfg.maxbytes.toNat
  | .chunkSize => Denotes l.val cfg.chunkSize
  | .itemSizeMax => Denotes l.val cfg.itemSizeMax
  | .slabChunkSizeMax => Denotes l.val cfg.slabChunkSizeMax
  | .slabPageSize => Denotes l.val cfg.slabPageSize
  | _ => l.accepted cfg

/-- **The number in the value of a size is one of the setting's type**, as far as the parser leaves that open. -/
def InRange (l : KeyLine) : Prop :=
  match l.key with
  | .maxbytes => ∀ z, Denotes l.val z → 0 ≤ z
  | .chunkSize | .itemSizeMax | .slabChunkSizeMax | .slabPageSize => ∀ z, Denotes l.val z →
      -2 ^ 31 ≤ z ∧ z < 2 ^ 31
  | _ => True

/-- The number in the value of a `uint32_t` key. -/
def ulong (l : KeyLine) : ℕ := (safeStrtoul l.val).getD 0

/-- The number in the value of a `uint64_t` key. -/
def ullong (l : KeyLine) : ℕ := (safeStrtoull l.val).getD 0

def sets (g : RestartGlobals) (l : KeyLine) : RestartGlobals :=
  l.key.put (UInt32.ofNat l.ulong) (UInt64.ofNat l.ullong) (toInt32 l.ulong) g

end KeyLine

/-- The lines with a key in front of the first one that is rejected. -/
def acceptedFront (cfg : RestartSettings) (tags : List Bytes) (file : List FileLine) : List KeyLine :=
  (keyLines tags file).takeWhile (KeyLine.accepted cfg)

def lastFor (k : MetaKey) (ls : List KeyLine) : Option KeyLine := (ls.filter (fun l => l.key = k)).getLast?

/-- **Without effect.** For each assigned global the last of the lines gives the value it has, and the numbers that are
added to the logger's id come to zero. -/
structure WithoutEffect (g : RestartGlobals) (ls : List KeyLine) : Prop where
  oldestLive : ∀ l ∈ lastFor .oldestLive ls, UInt32.ofNat l.ulong = g.oldestLive
  oldestCas : ∀ l ∈ lastFor .oldestCas ls, UInt64.ofNat l.ullong = g.oldestCas
  casId : ∀ l ∈ lastFor .currentCas ls, UInt64.ofNat l.ullong = g.casId
  loggerGid : ((ls.filter (fun l => l.key = .loggerGid)).map (fun l => UInt64.ofNat l.ullong)).sum = 0
  hashpowerInit : ∀ l ∈ lastFor .hashpower ls, toInt32 l.ulong = g.hashpowerInit

/-! ### One line -/

namespace MetaLoad

theorem check_reuse {s : MetaLoad} (h : s.reuseMmap = 0) (same : Bool) :
    (s.check same).reuseMmap = if same then 0 else -1 := by
  cases same
  · rfl
  · exact h

theorem check_globals (s : MetaLoad) (same : Bool) : (s.check same).globals = s.globals := by
  cases same <;> rfl

theorem check_linesSeen (s : MetaLoad) (same : Bool) : (s.check same).linesSeen = s.linesSeen := by
  cases same <;> rfl

end MetaLoad

variable (cfg : RestartSettings)

/-- **One line.** From a state that is not rejected an accepted line has its effect on the globals, and any other
line is rejected without one. -/
theorem loadKey_spec {s : MetaLoad} (l : KeyLine) (h : s.reuseMmap = 0) :
    (loadKey cfg l.val l.now s l.key).linesSeen = s.linesSeen ∧
      (loadKey cfg l.val l.now s l.key).reuseMmap = (if l.accepted cfg then 0 else -1) ∧
      (loadKey cfg l.val l.now s l.key).globals = if l.accepted cfg then l.sets s.globals else s.globals := by
  obtain ⟨k, val, now⟩ := l
  cases k with
  | maxbytes | chunkSize | itemSizeMax | slabChunkSizeMax | slabPageSize | slabConfig | useCas | slabReassign =>
    exact ⟨MetaLoad.check_linesSeen s _, MetaLoad.check_reuse h _,
      (MetaLoad.check_globals s _).trans (ite_self _).symm⟩
  | mmapOldbase =>
    cases hv : safeStrtoullHex val <;> simp [loadKey, KeyLine.accepted, KeyLine.sets, MetaKey.put,
      MetaLoad.reject, hv, h]
  | currentCas | oldestCas | loggerGid | processStarted =>
    cases hv : safeStrtoull val <;>
      simp [loadKey, KeyLine.accepted, KeyLine.sets, MetaKey.put, KeyLine.ullong, MetaLoad.assign,
        MetaLoad.reject, hv, h]
  | oldestLive | currentTime | hashpower =>
    cases hv : safeStrtoul val <;>
      simp [loadKey, KeyLine.accepted, KeyLine.sets, MetaKey.put, KeyLine.ulong, MetaLoad.assign,
        MetaLoad.reject, hv, h]
  | stopTime =>
    cases hv : safeStrtoll val with
    | none => simp [loadKey, KeyLine.accepted, MetaLoad.assign, MetaLoad.reject, hv]
    | some v =>
      by_cases hd : now - v ≤ 0
      · have hn : ¬ v < now := by omega
        simp [loadKey, KeyLine.accepted, MetaLoad.assign, MetaLoad.reject, hv, hd, hn]
      · have hn : v < now := by omega
        simp [loadKey, KeyLine.accepted, KeyLine.sets, MetaKey.put, MetaLoad.assign, hv, hd, hn, h]

theorem toInt32_eq_self_iff (z : ℤ) : toInt32 z = z ↔ -2 ^ 31 ≤ z ∧ z < 2 ^ 31 := by
  unfold toInt32
  omega

theorem denotes_size_iff {val : Bytes} {size : ℤ} (h : (safeStrtol val).any (· == size)) :
    Denotes val size ↔ ∀ z, Denotes val z → -2 ^ 31 ≤ z ∧ z < 2 ^ 31 := by
  obtain ⟨v, hv, heq⟩ := (Option.any_eq_true _ _).mp h
  obtain ⟨z, hz, -, -, rfl⟩ := safeStrtol_eq_some_iff.mp hv
  rw [← beq_iff_eq.mp heq]
  constructor
  · intro hnarrow z' hz'
    rw [hz'.unique hz, ← toInt32_eq_self_iff]
    exact hnarrow.unique hz
  · intro hrange
    rw [(toInt32_eq_self_iff z).mpr (hrange z hz)]
    exact hz

theorem denotes_maxbytes_iff {val : Bytes} {maxbytes : UInt64}
    (h : (safeStrtoll val).any fun v => UInt64.ofInt v == maxbytes) :
    Denotes val maxbytes.toNat ↔ ∀ z, Denotes val z → 0 ≤ z := by
  obtain ⟨z, hv, heq⟩ := (Option.any_eq_true _ _).mp h
  obtain ⟨hz, -, hlt⟩ := safeStrtoll_eq_some_iff.mp hv
  rw [← beq_iff_eq.mp heq]
  constructor
  · intro hnarrow z' hz'
    rw [hz'.unique hnarrow]
    exact Int.natCast_nonneg _
  · intro hpos
    obtain ⟨n, rfl⟩ := Int.eq_ofNat_of_zero_le (hpos z hz)
    have hn : (UInt64.ofInt n).toNat = n := by
      have hlow : ((n : ℤ) % 2 ^ 64).toNat = n := by omega
      rw [UInt64.ofInt, hlow]
      exact UInt64.toNat_ofNat_of_lt' (show n < 2 ^ 64 by omega)
    rwa [hn]

/-- An accepted line is good iff the number in it is one of the setting's type. -/
theorem KeyLine.good_iff {cfg : RestartSettings} {l : KeyLine} (h : l.accepted cfg) : l.Good cfg ↔ l.InRange := by
  obtain ⟨k, val, now⟩ := l
  cases k with
  | maxbytes => exact denotes_maxbytes_iff h
  | chunkSize | itemSizeMax | slabChunkSizeMax | slabPageSize => exact denotes_size_iff h
  | _ => exact iff_of_true h trivial

/-! ### The loop -/

def keyLoop (cfg : RestartSettings) : List KeyLine → MetaLoad → MetaLoad
  | [], s => s
  | l :: ls, s =>
    let s := loadKey cfg l.val l.now { s with linesSeen := s.linesSeen + 1 } l.key
    if s.reuseMmap ≠ 0 then s else keyLoop cfg ls s

variable (tags : List Bytes) (file : List FileLine)

theorem metaLoop_eq (s : MetaLoad) : metaLoop cfg tags file s = keyLoop cfg (keyLines tags file) s := by
  induction file generalizing s with
  | nil => rfl
  | cons line rest ih =>
    rw [metaLoop, keyLines, delivered]
    split
    · rename_i key val now _
      rw [filterMap_cons, KvLine.known]
      cases MetaKey.find key with
      | none => exact ih s
      | some k =>
        simp only [Option.map_some, keyLoop]
        split
        · rfl
        · exact ih _
    · rfl

variable (ls : List KeyLine)

/-- **The loop.** It reads the lines in front of the first rejected one; without such a one it counts them all. -/
theorem keyLoop_spec {s : MetaLoad} (h : s.reuseMmap = 0) :
    (keyLoop cfg ls s).globals = (ls.takeWhile (KeyLine.accepted cfg)).foldl KeyLine.sets s.globals ∧
      ((keyLoop cfg ls s).reuseMmap = 0 ↔ ∀ l ∈ ls, l.accepted cfg) ∧
      ((keyLoop cfg ls s).reuseMmap = 0 → (keyLoop cfg ls s).linesSeen = s.linesSeen + ls.length) := by
  induction ls generalizing s with
  | nil => simp [keyLoop, h]
  | cons l ls ih =>
    obtain ⟨hlines, hreuse, hglobals⟩ := loadKey_spec cfg (s := { s with linesSeen := s.linesSeen + 1 }) l h
    rw [keyLoop]
    by_cases hg : l.accepted cfg
    · rw [if_pos hg] at hreuse hglobals
      obtain ⟨ihg, ihr, ihl⟩ := ih hreuse
      rw [if_neg (not_not.mpr hreuse)]
      refine ⟨?_, ?_, ?_⟩
      · rw [ihg, hglobals, takeWhile_cons, if_pos hg, foldl_cons]
      · rw [ihr, forall_mem_cons, and_iff_right hg]
      · intro hr
        rw [ihl hr, hlines, length_cons, Nat.add_right_comm, Nat.add_assoc]
    · rw [if_neg hg] at hreuse hglobals
      have hr : (loadKey cfg l.val l.now { s with linesSeen := s.linesSeen + 1 } l.key).reuseMmap ≠ 0 := by
        rw [hreuse]
        decide
      rw [if_pos hr]
      refine ⟨?_, ?_, ?_⟩
      · rw [hglobals, takeWhile_cons, if_neg hg, foldl_nil]
      · exact iff_of_false hr (fun hall => hg (hall l mem_cons_self))
      · exact fun h0 => absurd h0 hr

/-! ### The globals after the accepted lines -/

theorem MetaKey.put_fields (live : UInt32) (big : UInt64) (power : ℤ) (g : RestartGlobals) (k : MetaKey) :
    (k.put live big power g).oldestLive = (if k = .oldestLive then live else g.oldestLive) ∧
      (k.put live big power g).oldestCas = (if k = .oldestCas then big else g.oldestCas) ∧
      (k.put live big power g).casId = (if k = .currentCas then big else g.casId) ∧
      (k.put live big power g).loggerGid = (if k = .loggerGid then g.loggerGid + big else g.loggerGid) ∧
      (k.put live big power g).hashpowerInit = if k = .hashpower then power else g.hashpowerInit := by
  cases k <;> simp [put]

/-- A global that one key assigns holds what the last line for the key gives. -/
theorem foldl_sets_assigned {α : Type} (field : RestartGlobals → α) (k : MetaKey) (value : KeyLine → α)
    (hk : ∀ g l, field (KeyLine.sets g l) = if l.key = k then value l else field g) (ls : List KeyLine)
    (g : RestartGlobals) :
    field (ls.foldl KeyLine.sets g) = ((lastFor k ls).map value).getD (field g) := by
  induction ls using reverseRecOn with
  | nil => rfl
  | append_singleton ls l ih =>
    rw [foldl_append, foldl_cons, foldl_nil, hk, lastFor, filter_append]
    by_cases h : l.key = k
    · simp [h]
    · simp [h, ih, lastFor]

theorem foldl_sets_loggerGid (g : RestartGlobals) : (ls.foldl KeyLine.sets g).loggerGid =
      g.loggerGid + ((ls.filter (fun l => l.key = .loggerGid)).map (fun l => UInt64.ofNat l.ullong)).sum := by
  induction ls generalizing g with
  | nil => exact (UInt64.add_zero _).symm
  | cons l ls ih =>
    rw [foldl_cons, ih, KeyLine.sets, (MetaKey.put_fields _ _ _ g l.key).2.2.2.1]
    by_cases h : l.key = .loggerGid
    · rw [if_pos h, filter_cons_of_pos (by simpa using h), map_cons, sum_cons, UInt64.add_assoc]
    · rw [if_neg h, filter_cons_of_neg (by simpa using h)]

/-- An optional value in place of a default changes nothing iff it is the default. -/
theorem getD_map_eq_iff {α β : Type} (o : Option α) (f : α → β) (d : β) :
    (o.map f).getD d = d ↔ ∀ a ∈ o, f a = d := by
  cases o <;> simp

theorem foldl_sets_eq_iff (g : RestartGlobals) : ls.foldl KeyLine.sets g = g ↔ WithoutEffect g ls := by
  have hlive := foldl_sets_assigned RestartGlobals.oldestLive .oldestLive (fun l => UInt32.ofNat l.ulong)
    (fun g l => (MetaKey.put_fields _ _ _ g l.key).1) ls g
  have hcas := foldl_sets_assigned RestartGlobals.oldestCas .oldestCas (fun l => UInt64.ofNat l.ullong)
    (fun g l => (MetaKey.put_fields _ _ _ g l.key).2.1) ls g
  have hid := foldl_sets_assigned RestartGlobals.casId .currentCas (fun l => UInt64.ofNat l.ullong)
    (fun g l => (MetaKey.put_fields _ _ _ g l.key).2.2.1) ls g
  have hpower := foldl_sets_assigned RestartGlobals.hashpowerInit .hashpower (fun l => toInt32 l.ulong)
    (fun g l => (MetaKey.put_fields _ _ _ g l.key).2.2.2.2) ls g
  have hgid := foldl_sets_loggerGid ls g
  generalize ls.foldl KeyLine.sets g = g' at hlive hcas hid hpower hgid ⊢
  obtain ⟨live, cas, id, gid, power⟩ := g'
  dsimp only at hlive hcas hid hpower hgid
  constructor
  · rintro rfl
    exact ⟨(getD_map_eq_iff _ _ _).mp hlive.symm, (getD_map_eq_iff _ _ _).mp hcas.symm,
      (getD_map_eq_iff _ _ _).mp hid.symm, UInt64.left_eq_add.mp hgid, (getD_map_eq_iff _ _ _).mp hpower.symm⟩
  · rintro ⟨h1, h2, h3, h4, h5⟩
    rw [(getD_map_eq_iff _ _ _).mpr h1] at hlive
    rw [(getD_map_eq_iff _ _ _).mpr h2] at hcas
    rw [(getD_map_eq_iff _ _ _).mpr h3] at hid
    rw [(getD_map_eq_iff _ _ _).mpr h5] at hpower
    rw [h4, UInt64.add_zero] at hgid
    rw [hlive, hcas, hid, hpower, hgid]

/-! ### All or nothing -/

/-- **All or nothing.** The callback accepts only a file with all the keys and only good lines for them; if it rejects,
the globals are as they were. -/
def AllOrNothing (cfg : RestartSettings) (tags : List Bytes) (file : List FileLine) (g : RestartGlobals)
    (info : MetaData) : Prop :=
  let r := mcMetaLoadCb cfg tags file g info
  (r.1 = 0 → (∀ k : MetaKey, ∃ l ∈ delivered tags file, l.key = k.name) ∧
    ∀ l ∈ delivered tags file, ∀ k : MetaKey, l.key = k.name → KeyLine.Good cfg ⟨k, l.val, l.now⟩) ∧
  (r.1 ≠ 0 → r.2.1 = g)

theorem mem_keyLines {tags : List Bytes} {file : List FileLine} {l : KeyLine} :
    l ∈ keyLines tags file ↔ ∃ d ∈ delivered tags file, d.key = l.key.name ∧ d.val = l.val ∧
      d.now = l.now := by
  simp only [keyLines, mem_filterMap, KvLine.known, Option.map_eq_some_iff, MetaKey.find_eq_some]
  constructor
  · rintro ⟨d, hd, k, hk, rfl⟩
    exact ⟨d, hd, hk, rfl, rfl⟩
  · rintro ⟨d, hd, hk, hv, hn⟩
    exact ⟨d, hd, l.key, hk, by rw [hv, hn]⟩

variable (g : RestartGlobals) (info : MetaData)

/-- The callback accepts iff it rejects no line with a key and there are seventeen. -/
theorem mcMetaLoadCb_accepts_iff :
    (mcMetaLoadCb cfg tags file g info).1 = 0 ↔
      (∀ l ∈ keyLines tags file, l.accepted cfg) ∧ restartRequiredMeta ≤ (keyLines tags file).length := by
  simp only [mcMetaLoadCb, metaLoop_eq]
  obtain ⟨-, hr, hl⟩ := keyLoop_spec cfg (keyLines tags file)
    (s := { globals := g, info := { info with processStarted := 0, timeDelta := 0, currentTime := 0 }
            linesSeen := 0, reuseMmap := 0 }) rfl
  rw [← hr]
  split
  · rename_i hlt
    refine iff_of_false (by decide) ?_
    rintro ⟨h0, hle⟩
    rw [hl h0, Nat.zero_add] at hlt
    omega
  · rename_i hle
    refine ⟨fun h0 => ⟨h0, ?_⟩, fun h => h.1⟩
    rw [hl h0, Nat.zero_add] at hle
    omega

theorem mcMetaLoadCb_globals :
    (mcMetaLoadCb cfg tags file g info).2.1 = (acceptedFront cfg tags file).foldl KeyLine.sets g := by
  simp only [mcMetaLoadCb, metaLoop_eq]
  exact (keyLoop_spec cfg (keyLines tags file) rfl).1

/-- **When the metadata is all or nothing.** A file of seventeen or more lines that are accepted must name every
key, and the sizes in it be numbers of the settings' types; the accepted lines in front of what makes the callback
reject any other file must be without effect. -/
theorem metadata_all_or_nothing_iff (cfg : RestartSettings) (tags : List Bytes) (file : List FileLine)
    (g : RestartGlobals) (info : MetaData) :
    AllOrNothing cfg tags file g info ↔
      if (∀ l ∈ keyLines tags file, l.accepted cfg) ∧ restartRequiredMeta ≤ (keyLines tags file).length then
        (∀ k : MetaKey, ∃ l ∈ keyLines tags file, l.key = k) ∧ ∀ l ∈ keyLines tags file, l.InRange
      else WithoutEffect g (acceptedFront cfg tags file) := by
  have haccepts := mcMetaLoadCb_accepts_iff cfg tags file g info
  simp only [AllOrNothing]
  split
  · rename_i h
    have h0 := haccepts.mpr h
    have hkeys : (∀ k : MetaKey, ∃ l ∈ keyLines tags file, l.key = k) ↔
        ∀ k : MetaKey, ∃ l ∈ delivered tags file, l.key = k.name := by
      refine forall_congr' fun k => ⟨?_, ?_⟩
      · rintro ⟨l, hl, rfl⟩
        obtain ⟨d, hd, hk, -, -⟩ := mem_keyLines.mp hl
        exact ⟨d, hd, hk⟩
      · rintro ⟨d, hd, hk⟩
        exact ⟨⟨k, d.val, d.now⟩, mem_keyLines.mpr ⟨d, hd, hk, rfl, rfl⟩, rfl⟩
    have hgood : (∀ l ∈ keyLines tags file, l.InRange) ↔
        ∀ d ∈ delivered tags file, ∀ k : MetaKey, d.key = k.name → KeyLine.Good cfg ⟨k, d.val, d.now⟩ := by
      constructor
      · intro hrange d hd k hk
        have hmem : ⟨k, d.val, d.now⟩ ∈ keyLines tags file := mem_keyLines.mpr ⟨d, hd, hk, rfl, rfl⟩
        exact (KeyLine.good_iff (h.1 _ hmem)).mpr (hrange _ hmem)
      · intro hall l hl
        obtain ⟨d, hd, hk, hv, hn⟩ := mem_keyLines.mp hl
        have hline := hall d hd l.key hk
        rw [hv, hn] at hline
        exact (KeyLine.good_iff (h.1 l hl)).mp hline
    rw [hkeys, hgood]
    exact ⟨fun hall => hall.1 h0, fun hall => ⟨fun _ => hall, fun hne => absurd h0 hne⟩⟩
  · rename_i h
    have hne := fun h0 => h (haccepts.mp h0)
    rw [mcMetaLoadCb_globals, foldl_sets_eq_iff]
    exact ⟨fun hall => hall.2 hne, fun hw => ⟨fun h0 => absurd h0 hne, fun _ => hw⟩⟩

/-! ### Three files -/

def restartSettingsExample : RestartSettings where
  maxbytes := 67108864
  chunkSize := 48
  itemSizeMax := 1048576
  slabChunkSizeMax := 524288
  slabPageSize := 1048576
  slabConfig := token "1.25".toList
  useCas := true
  slabReassign := true

def restartGlobalsExample : RestartGlobals := ⟨0, 0, 0, 0, 0⟩

def metaFileLine (text : String) : FileLine := ⟨token text.toList, [], 1000⟩

def loadExample (file : List FileLine) : ℤ × RestartGlobals × MetaData :=
  mcMetaLoadCb restartSettingsExample [token "main".toList] file restartGlobalsExample ⟨0, 0, 0, 0⟩

/-- The line of a running server of this configuration for each key, but for the chunk size. -/
def otherChunkFile : List FileLine :=
  ["Kmmap_oldbase 0x7f0000000000", "Kmaxbytes 67108864", "Kchunk_size 4294967344", "Kitem_size_max 1048576",
    "Kslab_chunk_size_max 524288", "Kslab_page_size 1048576", "Kslab_config 1.25", "Kuse_cas true",
    "Kslab_reassign true", "Kcurrent_cas 5", "Koldest_cas 0", "Koldest_live 0", "Klogger_gid 1", "Kcurrent_time 100",
    "Kstop_time 900", "Kprocess_started 800", "Khashpower 16"].map metaFileLine

/-- Seventeen times the same line is accepted; so is a file that names another chunk size, the same in 32 bits; and
a file whose second line names a chunk size that is not is rejected with the flush marker of its first line in
place. -/
theorem metadata_repeated_and_partial :
    let repeated := replicate 17 (metaFileLine "Kmaxbytes 67108864")
    let cut := [metaFileLine "Koldest_live 900", metaFileLine "Kchunk_size 96"]
    let main := [token "main".toList]
    (loadExample repeated).1 = 0 ∧
      ¬ AllOrNothing restartSettingsExample main repeated restartGlobalsExample ⟨0, 0, 0, 0⟩ ∧
      (loadExample cut).1 = -1 ∧ (loadExample cut).2.1.oldestLive = 900 ∧
      ¬ AllOrNothing restartSettingsExample main cut restartGlobalsExample ⟨0, 0, 0, 0⟩ ∧
      (loadExample otherChunkFile).1 = 0 ∧
      ¬ AllOrNothing restartSettingsExample main otherChunkFile restartGlobalsExample ⟨0, 0, 0, 0⟩ := by
  intro repeated cut main
  have hrep : (loadExample repeated).1 = 0 := by decide +kernel
  have hkeys : (delivered main repeated).all (fun l => l.key != MetaKey.name .hashpower) = true := by decide +kernel
  have hrej : (loadExample cut).1 = -1 := by decide +kernel
  have hlive : (loadExample cut).2.1.oldestLive = 900 := by decide +kernel
  have hother : (loadExample otherChunkFile).1 = 0 := by decide +kernel
  have hread : (delivered main otherChunkFile).any (fun l => l.key == MetaKey.name .chunkSize &&
      strtoNumber l.val == some (false, 4294967344, [])) = true := by decide +kernel
  refine ⟨hrep, fun h => ?_, hrej, hlive, fun h => ?_, hother, fun h => ?_⟩
  · obtain ⟨l, hl, hk⟩ := (h.1 hrep).1 .hashpower
    exact (bne_iff_ne.mp (all_eq_true.mp hkeys l hl)) hk
  · have hne : (loadExample cut).1 ≠ 0 := by
      rw [hrej]
      decide
    have hsame : (loadExample cut).2.1 = restartGlobalsExample := h.2 hne
    rw [hsame] at hlive
    exact absurd hlive (by decide)
  · obtain ⟨l, hl, hline⟩ := any_eq_true.mp hread
    obtain ⟨hk, hnumber⟩ := Bool.and_eq_true_iff.mp hline
    have hden : Denotes l.val 4294967344 := denotes_iff.mpr ⟨_, _, _, beq_iff_eq.mp hnumber, by decide, rfl⟩
    have hgood : Denotes l.val 48 := (h.1 hother).2 l hl .chunkSize (beq_iff_eq.mp hk)
    exact absurd (hgood.unique hden) (by decide)

end BmcCache
