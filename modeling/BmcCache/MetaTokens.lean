import BmcCache.MetaGet

/-!
# The arguments of the meta flags

`_meta_flag_preparse` counts the tokens that the flags of a meta command need.  After it `process_mget_command`,
`process_mset_command` and `process_mdelete_command` each go over the flags with an index `rtokens` of their own.

* `MetaCommand.flagTokens` — the flags with the value of `rtokens` at each of them; `metaFlags_eq_map`,
  `msetOptions_eq_foldlM` and `mdeleteOptions` say that these are the tokens the loops read;
* `OwnArguments` — the line passes the count of its tokens, and every flag that the command interprets reads the token
  at its own place;
* `MetaCommand.KeepsPace` — the flags behind which `rtokens` is right. `mg` leaves out the arguments of `F`, `S`
  and `C`, `ms` those of `N` and `R`, `md` those of `N`, `R`, `F` and `S`, and `md` skips an argument that `k` does
  not have;
* `meta_arguments_iff` — a line is read as it should be if and only if it has at most four arguments, which is what
  `MAX_TOKENS` leaves room for, and each interpreted flag stands behind flags of that kind.
-/

namespace BmcCache

open List

inductive MetaCommand where
  | mg
  | ms
  | md
  deriving DecidableEq, Repr

namespace MetaCommand

def verb : MetaCommand → Bytes
  | .mg => token ['m', 'g']
  | .ms => token ['m', 's']
  | .md => token ['m', 'd']

def interprets : MetaCommand → Bytes
  | .mg => token ['T', 'N', 'R', 'O']
  | .ms => token ['F', 'C', 'S', 'T', 'O']
  | .md => token ['C', 'T', 'O']

/-- The flags at which the loop increments `rtokens`. -/
def consumes : MetaCommand → Bytes
  | .mg => token ['T', 'N', 'R', 'O']
  | .ms => token ['F', 'C', 'S', 'T', 'O']
  | .md => token ['C', 'T', 'O', 'k']

/-- `rtokens` behind a flag. -/
def advance (cmd : MetaCommand) (rtokens : ℕ) (o : UInt8) : ℕ := if o ∈ cmd.consumes then rtokens + 1 else rtokens

/-- The loop of the command over the flags: each flag with the value of `rtokens` at it. -/
def flagTokens (cmd : MetaCommand) : ℕ → Bytes → List (UInt8 × ℕ)
  | _, [] => []
  | rtokens, o :: opts => (o, rtokens) :: cmd.flagTokens (cmd.advance rtokens o) opts

theorem flagTokens_append (cmd : MetaCommand) (front opts : Bytes) : ∀ rtokens,
    cmd.flagTokens rtokens (front ++ opts)
      = cmd.flagTokens rtokens front ++ cmd.flagTokens (front.foldl cmd.advance rtokens) opts := by
  induction front with
  | nil =>
    intro rtokens
    rfl
  | cons o front ih =>
    intro rtokens
    rw [cons_append, flagTokens, flagTokens, ih, foldl_cons, cons_append]

@[simp] theorem flagTokens_length (cmd : MetaCommand) (opts : Bytes) : ∀ rtokens,
    (cmd.flagTokens rtokens opts).length = opts.length := by
  induction opts with
  | nil =>
    intro rtokens
    rfl
  | cons o opts ih =>
    intro rtokens
    rw [flagTokens, length_cons, length_cons, ih]

theorem flagTokens_at (cmd : MetaCommand) (front back : Bytes) (o : UInt8) (rtokens : ℕ) :
    (cmd.flagTokens rtokens (front ++ o :: back)).getD front.length (0, 0) = (o, front.foldl cmd.advance rtokens) := by
  rw [flagTokens_append, getD_append_right _ _ _ _ (by rw [flagTokens_length]), flagTokens_length, Nat.sub_self,
    flagTokens, getD_cons_zero]

end MetaCommand

/-! ### The loops read these tokens -/

theorem drop_getD_zero (tokens : List Bytes) (i : ℕ) : (tokens.drop i).getD 0 [] = tokens.getD i [] := by
  rw [getD_eq_getElem?_getD, getD_eq_getElem?_getD, getElem?_drop, Nat.add_zero]

theorem metaFlags_eq_map (tokens : List Bytes) (opts : Bytes) : ∀ rtokens,
    metaFlags opts (tokens.drop rtokens)
      = (MetaCommand.mg.flagTokens rtokens opts).map fun f => metaFlag f.1 (tokens.getD f.2 []) := by
  induction opts with
  | nil =>
    intro rtokens
    rfl
  | cons o opts ih =>
    intro rtokens
    have hbehind : tokensBehind o (tokens.drop rtokens) = tokens.drop (MetaCommand.mg.advance rtokens o) := by
      have hmem : o ∈ token ['N', 'T', 'R', 'O'] ↔ o ∈ MetaCommand.mg.consumes := by
        simp only [MetaCommand.consumes, token, map_cons, map_nil, mem_cons, not_mem_nil]
        tauto
      rw [tokensBehind, MetaCommand.advance]
      by_cases h : o ∈ MetaCommand.mg.consumes
      · rw [if_pos (hmem.mpr h), if_pos h, tail_drop]
      · rw [if_neg (fun ho => h (hmem.mp ho)), if_neg h]
    rw [metaFlags, MetaCommand.flagTokens, map_cons, hbehind, ih, drop_getD_zero]

/-- A flag of `ms` with the index of its token; at `goto error` the message and the `vlen` of that moment. -/
def msetFlag (tokens : List Bytes) (vlen : ℤ) (f : UInt8 × ℕ) : Except (String × ℤ) ℤ :=
  Conn.msetOptions [f.1] [tokens.getD f.2 []] vlen

theorem msetOptions_step (o : UInt8) (opts : Bytes) (rtokens : List Bytes) (vlen : ℤ) :
    Conn.msetOptions (o :: opts) rtokens vlen
      = (Conn.msetOptions [o] [rtokens.getD 0 []] vlen).bind fun v =>
          Conn.msetOptions opts (if o ∈ MetaCommand.ms.consumes then rtokens.tail else rtokens) v := by
  have hmem : o ∈ MetaCommand.ms.consumes ↔ (o = Char.toUInt8 'F' ∨ o = Char.toUInt8 'T') ∨
    o = Char.toUInt8 'C' ∨
      o = Char.toUInt8 'S' ∨ o = Char.toUInt8 'O' := by
    simp only [MetaCommand.consumes, token, map_cons, map_nil, mem_cons, not_mem_nil]
    tauto
  rw [Conn.msetOptions, Conn.msetOptions, getD_cons_zero]
  by_cases hF : o = Char.toUInt8 'F' ∨ o = Char.toUInt8 'T'
  · rw [if_pos hF, if_pos hF, if_pos (hmem.mpr (Or.inl hF))]
    split
    · rfl
    · rfl
  rw [if_neg hF, if_neg hF]
  by_cases hC : o = Char.toUInt8 'C'
  · rw [if_pos hC, if_pos hC, if_pos (hmem.mpr (Or.inr (Or.inl hC)))]
    split
    · rfl
    · rfl
  rw [if_neg hC, if_neg hC]
  by_cases hS : o = Char.toUInt8 'S'
  · rw [if_pos hS, if_pos hS, if_pos (hmem.mpr (Or.inr (Or.inr (Or.inl hS))))]
    cases safeStrtol (rtokens.getD 0 []) with
    | none => rfl
    | some v => rfl
  rw [if_neg hS, if_neg hS]
  by_cases hO : o = Char.toUInt8 'O'
  · rw [if_pos hO, if_pos hO, if_pos (hmem.mpr (Or.inr (Or.inr (Or.inr hO))))]
    split
    · rfl
    · rfl
  rw [if_neg hO, if_neg hO, if_neg (fun h => by
    rcases hmem.mp h with h | h | h | h
    · exact hF h
    · exact hC h
    · exact hS h
    · exact hO h)]
  rfl

theorem msetOptions_eq_foldlM (tokens : List Bytes) (opts : Bytes) : ∀ rtokens vlen,
    Conn.msetOptions opts (tokens.drop rtokens) vlen
      = (MetaCommand.ms.flagTokens rtokens opts).foldlM (msetFlag tokens) vlen := by
  induction opts with
  | nil =>
    intro rtokens vlen
    rfl
  | cons o opts ih =>
    intro rtokens vlen
    have hbehind : (if o ∈ MetaCommand.ms.consumes then (tokens.drop rtokens).tail else tokens.drop rtokens)
        = tokens.drop (MetaCommand.ms.advance rtokens o) := by
      rw [MetaCommand.advance]
      split
      · rw [tail_drop]
      · rfl
    rw [msetOptions_step, hbehind, drop_getD_zero, MetaCommand.flagTokens, foldlM_cons]
    show Except.bind _ _ = Except.bind _ _
    congr 1
    funext v
    exact ih _ v

/-- What the loop of `process_mdelete_command` over the flags collects: `req_cas_id`, `exptime_int`, `new_ttl`, and the
bytes it writes for the reply. -/
structure MdeleteOptions where
  reqCasId : ℕ
  exptimeInt : ℕ
  newTtl : Bool
  p : Bytes
  deriving DecidableEq, Repr

/-- What ends that loop early: `goto error` with the message, or a string that is `NULL`. -/
inductive MdeleteFault where
  | error (errstr : String)
  | nullString
  deriving DecidableEq, Repr

/-- A flag of `md` with the index of its token.  The terminal token has length 0, and its string is `NULL`: the flags of
`md` get no further than the seventh token, and before that it ends the line. -/
def mdeleteFlag (key : Bytes) (tokens : List Bytes) (st : MdeleteOptions) (f : UInt8 × ℕ) :
    Except MdeleteFault MdeleteOptions :=
  let space := Char.toUInt8 ' '
  if f.1 = Char.toUInt8 'C' then
    match tokens[f.2]? with
    | none => .error .nullString
    | some arg =>
      match safeStrtoull arg with
      | none => .error (.error "CLIENT_ERROR bad command line format")
      | some cas => .ok { st with reqCasId := cas }
  else if f.1 = Char.toUInt8 'T' then
    match tokens[f.2]? with
    | none => .error .nullString
    | some arg =>
      match safeStrtoul arg with
      | none => .error (.error "CLIENT_ERROR bad command line format")
      | some exptime => .ok { st with exptimeInt := exptime, newTtl := true }
  else if f.1 = Char.toUInt8 'O' then
    let arg := tokens.getD f.2 []
    if Conn.mflagMaxOpaqueLength < arg.length then .error (.error "CLIENT_ERROR opaque token too long")
    else .ok { st with p := st.p ++ space :: arg }
  else if f.1 = Char.toUInt8 'k' then .ok { st with p := st.p ++ space :: key }
  else .ok st

/-- The loop of `process_mdelete_command` over the flags. -/
def mdeleteOptions (tokens : List Bytes) (opts : Bytes) : Except MdeleteFault MdeleteOptions :=
  (MetaCommand.md.flagTokens 3 opts).foldlM (mdeleteFlag (tokens.getD 1 []) tokens) ⟨0, 0, false, opts⟩

/-! ### Own arguments -/

def argumentCount (opts : Bytes) : ℕ := opts.countP (· ∈ Conn.tokenFlags)

/-- **Each flag has its own argument**: the tokens pass the check on their number, and every flag that the command
interprets reads the token that belongs to it, which is in front of the terminal token. -/
def OwnArguments (cmd : MetaCommand) (opts : Bytes) (tokens : List Bytes) : Prop :=
  (∃ mfres noReply, Conn.metaFlagPreparse [] opts = some (mfres, noReply) ∧ mfres + 4 = ntokens tokens) ∧
    ∀ front o back, opts = front ++ o :: back → o ∈ cmd.interprets →
      (cmd.flagTokens 3 opts).getD front.length (0, 0) = (o, 3 + argumentCount front) ∧
        3 + argumentCount front < tokens.length

/-- **The flags behind which `rtokens` is right.** -/
def MetaCommand.KeepsPace : MetaCommand → Bytes → Prop
  | .mg, front => ∀ o ∈ token ['F', 'S', 'C'], o ∉ front
  | .ms, front => ∀ o ∈ token ['N', 'R'], o ∉ front
  | .md, front => front.countP (· ∈ token ['N', 'R', 'F', 'S']) = front.count (Char.toUInt8 'k')

/-- `_meta_flag_preparse` counts the arguments of distinct known flags. -/
theorem metaFlagPreparse_known (opts : Bytes) : ∀ seen,
    (∀ o ∈ opts, o ∈ Conn.tokenFlags ∨ o ∈ Conn.plainFlags) → opts.Nodup →
    (∀ o ∈ opts, o ∉ seen) →
    ∃ noReply, Conn.metaFlagPreparse seen opts = some (argumentCount opts, noReply) := by
  induction opts with
  | nil =>
    intro seen _ _ _
    exact ⟨false, rfl⟩
  | cons o opts ih =>
    intro seen hknown hnodup hseen
    rw [nodup_cons] at hnodup
    obtain ⟨noReply, hrest⟩ := ih (o :: seen) (fun x hx => hknown x (mem_cons_of_mem o hx)) hnodup.2 (by
      intro x hx hmem
      rcases mem_cons.mp hmem with rfl | hmem
      · exact hnodup.1 hx
      · exact hseen x (mem_cons_of_mem o hx) hmem)
    have hsmall : ¬ (127 ≤ o ∨ o ∈ seen) := by
      rintro (hbig | hmem)
      · have hlt : ∀ x ∈ Conn.tokenFlags ++ Conn.plainFlags, ¬ 127 ≤ x := by decide +kernel
        exact hlt o (mem_append.mpr (hknown o (by simp))) hbig
      · exact hseen o (by simp) hmem
    rw [Conn.metaFlagPreparse, if_neg hsmall, hrest]
    dsimp only
    by_cases htok : o ∈ Conn.tokenFlags
    · refine ⟨noReply, ?_⟩
      rw [if_pos htok, argumentCount, argumentCount, countP_cons_of_pos (by simpa using htok)]
    · refine ⟨noReply || o == Char.toUInt8 'q', ?_⟩
      rw [if_neg htok, if_pos ((hknown o (by simp)).resolve_left htok), argumentCount, argumentCount,
        countP_cons_of_neg (by simpa using htok)]

/-- The value of `rtokens` counts the flags it is incremented at. -/
theorem foldl_advance (cmd : MetaCommand) (front : Bytes) : ∀ rtokens,
    front.foldl cmd.advance rtokens = rtokens + front.countP (· ∈ cmd.consumes) := by
  induction front with
  | nil =>
    intro rtokens
    rfl
  | cons o front ih =>
    intro rtokens
    rw [foldl_cons, ih, MetaCommand.advance]
    by_cases h : o ∈ cmd.consumes
    · rw [if_pos h, countP_cons_of_pos (by simpa using h)]
      omega
    · rw [if_neg h, countP_cons_of_neg (by simpa using h)]

theorem countP_add_eq {p q r t : UInt8 → Bool}
    (h : ∀ i : Fin 256, (p (.ofFin i)).toNat + (q (.ofFin i)).toNat = (r (.ofFin i)).toNat + (t (.ofFin i)).toNat)
    (l : Bytes) : l.countP p + l.countP q = l.countP r + l.countP t := by
  have hcons : ∀ (f : UInt8 → Bool) (o : UInt8) (l : Bytes),
      (o :: l).countP f = l.countP f + (f o).toNat := by
    intro f o l
    rw [countP_cons]
    cases f o <;> rfl
  induction l with
  | nil => rfl
  | cons o l ih =>
    have ho : (p o).toNat + (q o).toNat = (r o).toNat + (t o).toNat := h o.toFin
    rw [hcons p, hcons q, hcons r, hcons t]
    omega

theorem countP_eq_zero_iff {flags front : Bytes} :
    front.countP (· ∈ flags) = 0 ↔ ∀ o ∈ flags, o ∉ front := by
  rw [countP_eq_zero]
  constructor
  · intro h o ho hmem
    exact h o hmem (by simpa using ho)
  · intro h o hmem ho
    exact h o (by simpa using ho) hmem

/-- **Where `rtokens` is right**: it has been incremented once for each argument. -/
theorem MetaCommand.keepsPace_iff (cmd : MetaCommand) (front : Bytes) :
    cmd.KeepsPace front ↔ front.countP (· ∈ cmd.consumes) = argumentCount front := by
  cases cmd with
  | mg =>
    have hsum := @countP_add_eq (· ∈ Conn.tokenFlags) (fun _ => false) (· ∈ MetaCommand.mg.consumes)
      (· ∈ token ['F', 'S', 'C']) (by decide +kernel) front
    have hnone : front.countP (fun _ => false) = 0 := by simp
    rw [MetaCommand.KeepsPace, ← countP_eq_zero_iff, argumentCount]
    omega
  | ms =>
    have hsum := @countP_add_eq (· ∈ Conn.tokenFlags) (fun _ => false) (· ∈ MetaCommand.ms.consumes)
      (· ∈ token ['N', 'R']) (by decide +kernel) front
    have hnone : front.countP (fun _ => false) = 0 := by simp
    rw [MetaCommand.KeepsPace, ← countP_eq_zero_iff, argumentCount]
    omega
  | md =>
    have hsum := @countP_add_eq (· ∈ Conn.tokenFlags) (· == Char.toUInt8 'k') (· ∈ MetaCommand.md.consumes)
      (· ∈ token ['N', 'R', 'F', 'S']) (by decide +kernel) front
    rw [MetaCommand.KeepsPace, argumentCount, count]
    omega

/-- **Which lines are read as they should be.**  The words of the line are the command, a key, distinct known flags and
one word for each flag with an argument. -/
theorem meta_arguments_iff (cmd : MetaCommand) {command key opts : Bytes} {args : List Bytes}
    (hline : words (command.takeWhile (· != 0)) = cmd.verb :: key :: opts :: args)
    (hknown : ∀ o ∈ opts, o ∈ Conn.tokenFlags ∨ o ∈ Conn.plainFlags) (hdistinct : opts.Nodup)
    (hargs : args.length = argumentCount opts) :
    OwnArguments cmd opts (tokenizeCommand command).1 ↔
      argumentCount opts ≤ 4 ∧ ∀ front o back, opts = front ++ o :: back → o ∈ cmd.interprets →
        cmd.KeepsPace front := by
  have htokens : (tokenizeCommand command).1 = cmd.verb :: key :: opts :: args.take 4 := by
    rw [tokenizeCommand_take, hline]
    rfl
  obtain ⟨noReply, hpre⟩ := metaFlagPreparse_known opts [] hknown hdistinct (fun _ _ h => (nomatch h))
  have hlength : (tokenizeCommand command).1.length = 3 + min 4 (argumentCount opts) := by
    rw [htokens, length_cons, length_cons, length_cons, length_take, hargs]
    omega
  constructor
  · rintro ⟨⟨mfres, quiet, hpre', hcount⟩, hread⟩
    rw [hpre, Option.some.injEq, Prod.mk.injEq] at hpre'
    rw [ntokens, hlength, ← hpre'.1] at hcount
    refine ⟨by omega, ?_⟩
    intro front o back hopts ho
    have hat := (hread front o back hopts ho).1
    rw [hopts, cmd.flagTokens_at, Prod.mk.injEq, foldl_advance] at hat
    exact (cmd.keepsPace_iff front).mpr (by omega)
  · rintro ⟨hfew, hpace⟩
    refine ⟨⟨_, noReply, hpre, by rw [ntokens, hlength]; omega⟩, ?_⟩
    intro front o back hopts ho
    have hfront := (cmd.keepsPace_iff front).mp (hpace front o back hopts ho)
    have hown : argumentCount front < argumentCount opts := by
      have hflag : o ∈ Conn.tokenFlags := by
        have hsub : ∀ cmd : MetaCommand, ∀ x ∈ cmd.interprets, x ∈ Conn.tokenFlags := by
          intro cmd
          cases cmd <;> decide +kernel
        exact hsub cmd o ho
      rw [hopts, argumentCount, argumentCount, countP_append, countP_cons_of_pos (by simpa using hflag)]
      omega
    refine ⟨?_, by rw [hlength]; omega⟩
    rw [hopts, cmd.flagTokens_at, foldl_advance, hfront]

/-- `"md a Ok x"`: the token is echoed, then the key. -/
theorem meta_arguments_echo :
    OwnArguments .md (token ['O', 'k']) (tokenizeCommand (token ['m', 'd', ' ', 'a', ' ', 'O', 'k', ' ', 'x'])).1 := by
  have hline : words ((token ['m', 'd', ' ', 'a', ' ', 'O', 'k', ' ', 'x']).takeWhile (· != 0))
      = MetaCommand.md.verb :: token ['a'] :: token ['O', 'k'] :: [token ['x']] := by decide +kernel
  refine (meta_arguments_iff .md hline (by decide +kernel) (by decide +kernel) (by decide +kernel)).mpr
    ⟨by decide +kernel, ?_⟩
  intro front o back hopts ho
  rcases front with _ | ⟨x, _ | ⟨y, front⟩⟩
  · rfl
  · have hk : Char.toUInt8 'k' = o := (cons.inj (cons.inj hopts).2).1
    exact absurd (hk ▸ ho) (by decide)
  · have hlen := congrArg length hopts
    simp [token] at hlen

/-- **`"md a kO x"` echoes nothing**: `O` reads the terminal token. In `"md a kT 30"` it is `T` that does, and its
string is `NULL`. In `"mg a FO 1 x"` the flag `O` reads the token of `F`, and `"ms a FSTCO 1 2 3 4 x"` has more
tokens than the array. -/
theorem meta_arguments_missed :
    mdeleteOptions (tokenizeCommand (token ['m', 'd', ' ', 'a', ' ', 'k', 'O', ' ', 'x'])).1 (token ['k', 'O'])
        = .ok ⟨0, 0, false, token ['k', 'O', ' ', 'a', ' ']⟩ ∧
      mdeleteOptions (tokenizeCommand (token ['m', 'd', ' ', 'a', ' ', 'k', 'T', ' ', '3', '0'])).1 (token ['k', 'T'])
        = .error .nullString ∧
      ¬ OwnArguments .md (token ['k', 'O'])
        (tokenizeCommand (token ['m', 'd', ' ', 'a', ' ', 'k', 'O', ' ', 'x'])).1 ∧
      ¬ OwnArguments .mg (token ['F', 'O'])
        (tokenizeCommand (token ['m', 'g', ' ', 'a', ' ', 'F', 'O', ' ', '1', ' ', 'x'])).1 ∧
      ¬ OwnArguments .ms (token ['F', 'S', 'T', 'C', 'O'])
        (tokenizeCommand (token ['m', 's', ' ', 'a', ' ', 'F', 'S', 'T', 'C', 'O', ' ', '1', ' ', '2',
          ' ', '3', ' ', '4',
          ' ', 'x'])).1 := by
  refine ⟨by rfl, by rfl, ?_, ?_, ?_⟩
  · rintro ⟨-, hread⟩
    exact absurd (hread (token ['k']) (Char.toUInt8 'O') [] rfl (by decide)).1 (by decide)
  · rintro ⟨-, hread⟩
    exact absurd (hread (token ['F']) (Char.toUInt8 'O') [] rfl (by decide)).1 (by decide)
  · rintro ⟨⟨mfres, noReply, hpre, hcount⟩, -⟩
    have hfive : Conn.metaFlagPreparse [] (token ['F', 'S', 'T', 'C', 'O']) = some (5, false) := by decide
    rw [hfive, Option.some.injEq, Prod.mk.injEq] at hpre
    rw [← hpre.1] at hcount
    exact absurd hcount (by decide)

end BmcCache
