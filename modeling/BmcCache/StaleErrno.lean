import BmcCache.MetaCommands
import BmcCache.SlabPages

/-!
# `errno` between commands

`flush_all` and `slabs reassign` read their numbers with `strtol` and then test `errno`, which `strtol` sets when a
number is out of range and otherwise leaves alone.  What they find there may be left from an earlier command of the
thread.  So may `c->noreply`, which a quiet `mg` leaves set when it finds its item.

* `ErrnoCall`, `Earlier` — the calls that set `errno` and what a connection did, with `leftBy` for a history of them;
* `flushAllCommand`, `slabsReassignCommand` — the two branches of `process_command`;
* `stale_errno_iff` — when the answer and the effect are the same behind two histories.
-/

namespace BmcCache

open ItemStore

/-! ### The calls -/

@[simp] abbrev erange : ℕ := 34

/-- The number in the string does not fit a `long`. -/
def longRange (str : Bytes) : Bool :=
  match strtoNumber str with
  | none => false
  | some (negative, m, _) => decide (signedValue negative m < -2 ^ 63 ∨ 2 ^ 63 ≤ signedValue negative m)

/-- `strtol` in base ten: its result and `errno` behind it. -/
def strtol (str : Bytes) (errno : ℕ) : ℤ × ℕ :=
  match strtoNumber str with
  | none => (0, errno)
  | some (negative, m, _) =>
    let l := signedValue negative m
    if l < -2 ^ 63 then (-2 ^ 63, erange) else if 2 ^ 63 ≤ l then (2 ^ 63 - 1, erange) else (l, errno)

theorem strtol_errno (str : Bytes) (errno : ℕ) :
    (strtol str errno).2 = if longRange str then erange else errno := by
  unfold strtol longRange
  cases strtoNumber str with
  | none => rfl
  | some r =>
    obtain ⟨negative, m, rest⟩ := r
    dsimp only
    by_cases hlow : signedValue negative m < -2 ^ 63
    · rw [if_pos hlow, if_pos (decide_eq_true (Or.inl hlow))]
    by_cases hhigh : 2 ^ 63 ≤ signedValue negative m
    · rw [if_neg hlow, if_pos hhigh, if_pos (decide_eq_true (Or.inr hhigh))]
    · rw [if_neg hlow, if_neg hhigh, if_neg]
      rw [decide_eq_true_iff]
      exact not_or.mpr ⟨hlow, hhigh⟩

theorem strtol_value (str : Bytes) (errno errno' : ℕ) : (strtol str errno).1 = (strtol str errno').1 := by
  unfold strtol
  cases strtoNumber str with
  | none => rfl
  | some r =>
    dsimp only
    split
    · rfl
    · split <;> rfl

/-- The calls of a thread that set `errno`: the functions of util.c for the numbers of most commands, `strtol` itself,
and whatever else fails with an error of its own. -/
inductive ErrnoCall where
  | safe (t : NumberType) (str : Bytes)
  | strtol (str : Bytes)
  | fails (errno : ℕ)

/-- A number is out of range for the function that `safe_strtoul` and its relatives call. -/
def NumberType.range : NumberType → Bytes → Bool
  | .int32, str | .int64, str => longRange str
  | .uint32, str | .uint64, str =>
    match strtoNumber str with
    | none => false
    | some (_, m, _) => decide (2 ^ 64 ≤ m)

/-- `errno` behind a call; the functions of util.c clear it first. -/
def errnoStep (errno : ℕ) : ErrnoCall → ℕ
  | .safe t str => if t.range str then erange else 0
  | .strtol str => (BmcCache.strtol str errno).2
  | .fails e => e

/-- What a thread did before: a call that sets `errno`, for any connection, and on the connection of the command a
quiet meta command that is answered all the same, as `mg` is when it finds its item, and leaves `c->noreply` set, or
a line that goes through `out_string`, which clears it. -/
inductive Earlier where
  | call (c : ErrnoCall)
  | quietAnswer
  | line

/-- What is left of earlier commands. -/
structure Left where
  errno : ℕ
  noreply : Bool

def leftStep (t : Left) : Earlier → Left
  | .call c => { t with errno := errnoStep t.errno c }
  | .quietAnswer => { t with noreply := true }
  | .line => { t with noreply := false }

def leftBy (history : List Earlier) : Left := history.foldl leftStep ⟨0, false⟩

/-! ### The commands -/

def outString (noreply : Bool) (str : String) : Option String := if noreply then none else some str

/-- `c->noreply` behind `set_noreply_maybe`, for the tokens behind the command's name -/
def Left.quiet (t : Left) (args : List Bytes) : Bool :=
  t.noreply || decide (args.getLast? = some (token ['n', 'o', 'r', 'e', 'p', 'l', 'y']))

/-- `ntokens != (c->noreply ? 3 : 2)`: there is an exptime. -/
def flushReads (args : List Bytes) (noreply : Bool) : Bool :=
  decide (args.length + 2 ≠ if noreply then 3 else 2)

/-- The branch of `flush_all` in `process_command`; `none` is the call of `strtol` with the null pointer of the terminal
token. -/
def flushAllCommand (cfg : Settings) (flushEnabled : Bool) (args : List Bytes) (t : Left) (s : ItemStore) :
    Option (Option String × ItemStore) :=
  let noreply := t.quiet args
  if flushEnabled = false then some (outString noreply "CLIENT_ERROR flush_all not allowed", s)
  else if flushReads args noreply then
    match args.head? with
    | none => none
    | some value =>
      let (exptime, errno) := strtol value t.errno
      if errno = erange then some (outString noreply "CLIENT_ERROR bad command line format", s)
      else some (outString noreply "OK", s.flushAll cfg exptime)
  else some (outString noreply "OK", s.flushAll cfg 0)

/-- `enum reassign_result_type` -/
inductive ReassignResult where
  | ok
  | running
  | badclass
  | nospare
  | srcDstSame
  deriving DecidableEq, Repr

/-- What `slabs_reassign` returns; `locked` says that `slabs_rebalance_lock` is taken. -/
def slabsReassignResult (cfg : PageConfig) (locked : Bool) (src dst : ℤ) (s : PageState) : ReassignResult :=
  if locked ∨ s.signal ≠ .idle ∨ s.pending.isSome then .running
  else if src = dst then .srcDstSame
  else
    let src : ℤ := if src = -1 then (s.slabsReassignPickAny cfg dst cfg.powerLargest s.cur).1.elim (-1)
      Nat.cast else src
    if src < 0 ∨ cfg.powerLargest < src ∨ dst < 0 ∨ cfg.powerLargest < dst then .badclass
    else if (s.cls src.toNat).slabs < 2 then .nospare
    else .ok

/-- The line for a result of `slabs_reassign`. -/
def ReassignResult.line : ReassignResult → String
  | .ok => "OK"
  | .running => "BUSY currently processing reassign request"
  | .badclass => "BADCLASS invalid src or dst class id"
  | .nospare => "NOSPARE source class has no spare pages"
  | .srcDstSame => "SAME src and dst class are identical"

/-- The branch of `slabs reassign` in `process_command`, with its third and fourth token -/
def slabsReassignCommand (cfg : PageConfig) (locked : Bool) (src dst : Bytes) (t : Left) (s : PageState) :
    Option String × PageState :=
  if cfg.slabReassign = false then (outString t.noreply "CLIENT_ERROR slab reassignment disabled", s)
  else
    let (src, errno) := strtol src t.errno
    let (dst, errno) := strtol dst errno
    if errno = erange then (outString t.noreply "CLIENT_ERROR bad command line format", s)
    else
      (outString t.noreply (slabsReassignResult cfg locked (toInt32 src) (toInt32 dst) s).line,
        if locked then s else s.doSlabsReassign cfg (toInt32 src) (toInt32 dst))

/-! ### Two histories -/

/-- `settings.oldest_live` behind a flush. -/
def liveBehind (cfg : Settings) (now : ℕ) (exptime : ℤ) : ℕ :=
  if cfg.useCas then (newOldest cfg now exptime + 2 ^ 32 - 1) % 2 ^ 32 else newOldest cfg now exptime

/-- A flush that changes nothing: the same flush is pending already. -/
def FlushPending (cfg : Settings) (exptime : ℤ) (s : ItemStore) : Prop :=
  s.oldestLive = liveBehind cfg s.currentTime exptime ∧ (cfg.useCas = true → s.currentTime < s.oldestLive)

theorem flushAll_eq_self_iff (cfg : Settings) (exptime : ℤ) (s : ItemStore) :
    s.flushAll cfg exptime = s ↔ FlushPending cfg exptime s := by
  unfold flushAll FlushPending liveBehind
  cases hcas : cfg.useCas with
  | false =>
    simp only [Bool.false_eq_true, if_false, false_imp_iff, and_true]
    constructor
    · intro h
      exact (congrArg ItemStore.oldestLive h).symm
    · intro h
      rw [← h]
  | true =>
    simp only [if_true, true_imp_iff]
    generalize (newOldest cfg s.currentTime exptime + 2 ^ 32 - 1) % 2 ^ 32 = live
    unfold setOldestLive
    dsimp only
    split
    · rename_i hle
      refine iff_of_false ?_ (by omega)
      intro h
      have hid : (s.casId + 1) % 2 ^ 64 = s.casId := congrArg ItemStore.casId h
      omega
    · constructor
      · intro h
        have hlive : live = s.oldestLive := congrArg ItemStore.oldestLive h
        omega
      · rintro ⟨rfl, -⟩
        rfl

theorem outString_isSome (noreply : Bool) (str : String) : (outString noreply str).isSome = !noreply := by
  cases noreply <;> rfl

/-- A line that is refused behind one history and carried out behind the other differs in its answer, or in its
effect if the answer is suppressed. -/
theorem refused_eq_iff {σ : Type*} (long : Prop) [Decidable long] (errno errno' : ℕ) (noreply : Bool) {str : String}
    (hstr : str ≠ "CLIENT_ERROR bad command line format") (s s' : σ) :
    (if long ∨ errno = erange then (outString noreply "CLIENT_ERROR bad command line format", s)
      else (outString noreply str, s')) =
      (if long ∨ errno' = erange then (outString noreply "CLIENT_ERROR bad command line format", s)
        else (outString noreply str, s')) ↔
      long ∨ (errno = erange ↔ errno' = erange) ∨ noreply = true ∧ s' = s := by
  have hne : (outString noreply "CLIENT_ERROR bad command line format", s) = (outString noreply str, s') ↔
      noreply = true ∧ s' = s := by
    cases noreply <;> simp [outString, hstr, eq_comm]
  by_cases hlong : long
  · simp [hlong]
  by_cases herr : errno = erange <;> by_cases herr' : errno' = erange <;>
    simp only [hlong, herr, herr', or_true, or_false, if_true, if_false, iff_self, true_iff, false_iff, not_true,
      false_or, true_or]
  · exact hne
  · exact eq_comm.trans hne

section

variable {cfg : Settings} {flushEnabled : Bool} {args : List Bytes} {t t' : Left} {s : ItemStore}

theorem flushAllCommand_reads {value : Bytes} (hvalue : args.head? = some value)
    (hreads : flushReads args (t.quiet args) = true) : flushAllCommand cfg true args t s
      = some (if longRange value = true ∨ t.errno = erange then
          (outString (t.quiet args) "CLIENT_ERROR bad command line format", s)
        else (outString (t.quiet args) "OK", s.flushAll cfg (strtol value 0).1)) := by
  unfold flushAllCommand
  dsimp only
  rw [if_neg (by simp), if_pos hreads, hvalue]
  dsimp only
  rw [strtol_errno, strtol_value _ t.errno 0]
  by_cases hrange : longRange value = true
  · rw [if_pos hrange, if_pos rfl, if_pos (Or.inl hrange)]
  · rw [if_neg hrange]
    simp only [hrange, Bool.false_eq_true, false_or]
    split <;> rfl

/-- A connection that owes no silence gets a line. -/
theorem flushAllCommand_isSome : (flushAllCommand cfg flushEnabled args t s).map (·.1.isSome)
    = if flushEnabled = true ∧ args = [] ∧ t.quiet args = true then none else some (!t.quiet args) := by
  cases flushEnabled with
  | false => simp [flushAllCommand, outString_isSome]
  | true =>
    cases hreads : flushReads args (t.quiet args) with
    | false =>
      have hlen : args.length + 2 = if t.quiet args then 3 else 2 := by simpa [flushReads] using hreads
      rw [if_neg]
      · simp [flushAllCommand, hreads, outString_isSome]
      · rintro ⟨-, rfl, hquiet⟩
        rw [hquiet] at hlen
        cases hlen
    | true =>
      cases args with
      | nil =>
        have hquiet : t.quiet [] = true := by
          cases hquiet : t.quiet [] with
          | true => rfl
          | false =>
            rw [hquiet] at hreads
            cases hreads
        rw [if_pos ⟨rfl, rfl, hquiet⟩]
        simp [flushAllCommand, hreads]
      | cons value args =>
        rw [if_neg (by simp), flushAllCommand_reads rfl hreads]
        split <;> simp [outString_isSome]

/-- **Two histories before `flush_all`.** -/
theorem flushAllCommand_eq_iff : flushAllCommand cfg flushEnabled args t s =
    flushAllCommand cfg flushEnabled args t' s ↔
    t.quiet args = t'.quiet args ∧
      (flushEnabled = true → flushReads args (t.quiet args) = true → ∀ value ∈ args.head?,
      longRange value = true ∨ (t.errno = erange ↔ t'.errno = erange) ∨
        t.quiet args = true ∧ FlushPending cfg (strtol value 0).1 s) := by
  have hiff : ∀ value, args.head? = some value → flushReads args (t.quiet args) = true →
    t.quiet args = t'.quiet args →
      (flushAllCommand cfg true args t s = flushAllCommand cfg true args t' s ↔ longRange value = true ∨
        (t.errno = erange ↔ t'.errno = erange) ∨ t.quiet args = true ∧
          FlushPending cfg (strtol value 0).1 s) := by
    intro value hvalue hreads hquiet
    rw [flushAllCommand_reads hvalue hreads, flushAllCommand_reads hvalue (hquiet ▸ hreads), ← hquiet,
      Option.some_inj,
      refused_eq_iff _ _ _ _ (by decide), flushAll_eq_self_iff]
  constructor
  · intro hsame
    have hquiet : t.quiet args = t'.quiet args := by
      have hline := congrArg (Option.map (·.1.isSome)) hsame
      rw [flushAllCommand_isSome, flushAllCommand_isSome] at hline
      revert hline
      cases t.quiet args <;> cases t'.quiet args <;> simp
    refine ⟨hquiet, ?_⟩
    rintro rfl hreads value hvalue
    exact (hiff value hvalue hreads hquiet).mp hsame
  · rintro ⟨hquiet, h⟩
    cases flushEnabled with
    | false => simp [flushAllCommand, hquiet]
    | true =>
      cases hreads : flushReads args (t.quiet args) with
      | false => simp [flushAllCommand, ← hquiet, hreads]
      | true =>
        cases hvalue : args.head? with
        | none => simp [flushAllCommand, ← hquiet, hreads, hvalue]
        | some value => exact (hiff value hvalue hreads hquiet).mpr (h rfl hreads value hvalue)

end

theorem slabsReassignCommand_reads {cfg : PageConfig} (henabled : cfg.slabReassign = true) (locked : Bool)
    (src dst : Bytes) (t : Left) (s : PageState) : slabsReassignCommand cfg locked src dst t s
      = if (longRange src = true ∨ longRange dst = true) ∨ t.errno = erange then
          (outString t.noreply "CLIENT_ERROR bad command line format", s)
        else
          (outString t.noreply (slabsReassignResult cfg locked (toInt32 (strtol src 0).1)
            (toInt32 (strtol dst 0).1) s).line,
            if locked then s else s.doSlabsReassign cfg (toInt32 (strtol src 0).1) (toInt32 (strtol dst 0).1)) := by
  unfold slabsReassignCommand
  dsimp only
  rw [if_neg (by simp [henabled]), strtol_errno, strtol_errno, strtol_value src t.errno 0, strtol_value dst _ 0]
  by_cases hdst : longRange dst = true
  · rw [if_pos hdst, if_pos rfl, if_pos (Or.inl (Or.inr hdst))]
  rw [if_neg hdst]
  by_cases hsrc : longRange src = true
  · rw [if_pos hsrc, if_pos rfl, if_pos (Or.inl (Or.inl hsrc))]
  · rw [if_neg hsrc]
    simp only [hsrc, hdst, Bool.false_eq_true, or_self, false_or]

theorem ReassignResult.line_ne (r : ReassignResult) : r.line ≠ "CLIENT_ERROR bad command line format" := by
  cases r <;> decide

/-- **Two histories before `slabs reassign`.** -/
theorem slabsReassignCommand_eq_iff (cfg : PageConfig) (locked : Bool) (src dst : Bytes) (t t' : Left)
    (s : PageState) : slabsReassignCommand cfg locked src dst t s = slabsReassignCommand cfg locked src dst t' s ↔
      t.noreply = t'.noreply ∧ (cfg.slabReassign = true → (longRange src = true ∨ longRange dst = true) ∨
        (t.errno = erange ↔ t'.errno = erange) ∨ t.noreply = true ∧
          (if locked then s else s.doSlabsReassign cfg (toInt32 (strtol src 0).1) (toInt32 (strtol dst 0).1)) = s) := by
  have hline : ∀ t : Left, (slabsReassignCommand cfg locked src dst t s).1.isSome = !t.noreply := by
    intro t
    unfold slabsReassignCommand
    dsimp only
    split_ifs <;> exact outString_isSome _ _
  by_cases hquiet : t.noreply = t'.noreply
  · rw [and_iff_right hquiet]
    cases henabled : cfg.slabReassign with
    | false => simp [slabsReassignCommand, henabled, hquiet]
    | true =>
      rw [slabsReassignCommand_reads henabled, slabsReassignCommand_reads henabled, ← hquiet,
        refused_eq_iff _ _ _ _ (ReassignResult.line_ne _)]
      simp only [true_imp_iff]
  · refine iff_of_false (fun hsame => hquiet ?_) fun h => hquiet h.1
    have hsome := congrArg (fun r => r.1.isSome) hsame
    rwa [hline, hline, Bool.not_inj_iff] at hsome

/-- **When the history does not matter.** -/
theorem stale_errno_iff (history history' : List Earlier) :
    let t := leftBy history
    let t' := leftBy history'
    (∀ cfg flushEnabled args s, flushAllCommand cfg flushEnabled args t s =
      flushAllCommand cfg flushEnabled args t' s ↔
      t.quiet args = t'.quiet args ∧
        (flushEnabled = true → flushReads args (t.quiet args) = true → ∀ value ∈ args.head?,
        longRange value = true ∨ (t.errno = erange ↔ t'.errno = erange) ∨
          t.quiet args = true ∧ FlushPending cfg (strtol value 0).1 s)) ∧
    (∀ cfg locked src dst s, slabsReassignCommand cfg locked src dst t s =
      slabsReassignCommand cfg locked src dst t' s ↔
      t.noreply = t'.noreply ∧ (cfg.slabReassign = true → (longRange src = true ∨ longRange dst = true) ∨
        (t.errno = erange ↔ t'.errno = erange) ∨ t.noreply = true ∧
          (if locked then s else s.doSlabsReassign cfg (toInt32 (strtol src 0).1) (toInt32 (strtol dst 0).1)) = s)) :=
  ⟨fun _ _ _ _ => flushAllCommand_eq_iff, fun cfg locked src dst s =>
    slabsReassignCommand_eq_iff cfg locked src dst _ _ s⟩

/-- **`"flush_all 0"` behind `"incr a 99999999999999999999"`** is refused, and nothing is flushed; behind a quiet
`mg` that found its item `"flush_all"` reads a null pointer. -/
theorem stale_errno_refuses_flush :
    let incr : List Earlier := [.call (.safe .uint64 (List.replicate 20 57)), .line]
    (flushAllCommand smallChunks true [token ['0']] (leftBy []) (start 4 0 2)).map Prod.fst = some (some "OK") ∧
      (flushAllCommand smallChunks true [token ['0']] (leftBy incr) (start 4 0 2)).map Prod.fst =
        some (some "CLIENT_ERROR bad command line format") ∧
      (flushAllCommand smallChunks true [] (leftBy []) (start 4 0 2)).map Prod.fst = some (some "OK") ∧
      (flushAllCommand smallChunks true [] (leftBy [.quietAnswer]) (start 4 0 2)).isNone := by
  decide

end BmcCache
