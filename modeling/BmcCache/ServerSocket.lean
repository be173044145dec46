import Mathlib.Data.List.Perm.Subperm
import Mathlib.Data.List.Nodup
import Mathlib.Data.List.TakeWhile
import Mathlib.Tactic.Ring

/-!
# The UDP sockets of memcached-sr and the workers they go to

With `SO_REUSEPORT` `server_socket` binds several sockets to every address `getaddrinfo` returned, by jumping back to
`next_socket`, and hands each to the next worker.  The counter `thd` that ends the jumps is declared outside the loop
over the addresses: it is set back only behind an address that got all its sockets, and a `continue` out of the middle
of an address leaves it where it was.

* `SocketCalls` — what the calls for one socket come to: skipped over, fatal, or a bound socket;
* `nextSocket`, `serverSocket` — the loop, with the workers each address's sockets were handed to;
* `leftOver` — the counter an address starts with, read off the calls for the addresses before it;
* `nextSocket_spec` — an address that starts with the counter at `thd` gets `num_threads_per_udp + 1 - thd` sockets;
* `udp_sockets_iff` — it gets one for each worker exactly when `thd` is 1.
-/

namespace BmcCache

open List

inductive SocketCalls where
  /-- `new_socket` failed, but not for want of descriptors: `continue` -/
  | noSocket
  /-- `new_socket` failed with `EMFILE`: `exit` -/
  | outOfFds
  /-- `setsockopt` of `IPV6_V6ONLY` failed: `continue` -/
  | noV6Only
  /-- `bind` failed with `EADDRINUSE`: `continue` -/
  | addrInUse
  /-- `bind` failed otherwise: `return 1` -/
  | bindError
  | bound
  deriving DecidableEq, Repr

/-- `thd` of `server_socket` and `last_thread` of `thread.c`. -/
structure Listeners where
  thd : ℕ
  lastThread : ℤ
  deriving DecidableEq, Repr

/-- `dispatch_conn_new`: the worker the connection is pushed to. -/
def dispatchConnNew (numThreads : ℕ) (st : Listeners) : Listeners × ℕ :=
  let tid := ((st.lastThread + 1) % numThreads).toNat
  ({ st with lastThread := tid }, tid)

/-- How the loop body ends: with the next address, or with the end of `server_socket`. -/
inductive AddressEnd where
  | next
  | abort
  deriving DecidableEq, Repr

section

variable (numThreads numThreadsPerUdp : ℕ)

/-- The loop body from `next_socket` on, for the address whose `t`-th socket is to come; the result holds the workers
that got a socket.  A jump increments `thd`, so `num_threads_per_udp + 1` rounds are enough. -/
def nextSocket (calls : ℕ → SocketCalls) : ℕ → ℕ → Listeners → Listeners × List ℕ × AddressEnd
  | 0, _, st => (st, [], .next)
  | fuel + 1, t, st =>
    match calls t with
    | .noSocket | .noV6Only | .addrInUse => (st, [], .next)
    | .outOfFds | .bindError => (st, [], .abort)
    | .bound =>
      let (st, tid) := dispatchConnNew numThreads st
      if st.thd < numThreadsPerUdp then
        let (st, tids, e) := nextSocket calls fuel (t + 1) { st with thd := st.thd + 1 }
        (st, tid :: tids, e)
      else ({ st with thd := 0 }, [tid], .next)

/-- `for (next = ai; next; next = next->ai_next)` -/
def serverSocketLoop : List (ℕ → SocketCalls) → Listeners → Listeners × List (List ℕ)
  | [], st => (st, [])
  | calls :: rest, st =>
    match nextSocket numThreads numThreadsPerUdp calls (numThreadsPerUdp + 1) 0 st with
    | (st, tids, .abort) => (st, [tids])
    | (st, tids, .next) =>
      let (st, tidss) := serverSocketLoop rest st
      (st, tids :: tidss)

/-- `server_socket` for UDP with `settings.reuseport`: for each address the workers its sockets went to. -/
def serverSocket (lastThread : ℤ) (addrs : List (ℕ → SocketCalls)) : List (List ℕ) :=
  (serverSocketLoop numThreads numThreadsPerUdp addrs ⟨0, lastThread⟩).2

end

/-- `settings.num_threads_per_udp` as `main` computes it: one worker for each port if several are given. -/
def numThreadsPerUdp (inter : Option (List UInt8)) (numThreads : ℕ) : ℕ :=
  match inter with
  | none => numThreads
  | some inter => if (44 : UInt8) ∈ inter then 1 else numThreads

/-! ### What an address leaves behind -/

def SocketCalls.skipped : SocketCalls → Bool
  | .noSocket | .noV6Only | .addrInUse => true
  | .outOfFds | .bindError | .bound => false

/-- How many sockets are bound before the first call that fails, of at most `n`. -/
def boundRun (calls : ℕ → SocketCalls) (n : ℕ) : ℕ := ((range n).takeWhile fun t => calls t = .bound).length

/-- The counter behind an address that is entered with it at `thd`. -/
def thdAfter (n thd : ℕ) (calls : ℕ → SocketCalls) : ℕ :=
  if boundRun calls (n + 1 - thd) = n + 1 - thd then 0 else thd + boundRun calls (n + 1 - thd)

/-- The sockets bound for addresses that failed behind the last address that got all of its sockets. -/
def leftOver (n : ℕ) (before : List (ℕ → SocketCalls)) : ℕ := before.foldl (thdAfter n) 0

/-! ### One address -/

section

variable {numThreads n : ℕ}

/-- The workers that get `c` sockets one after the other. -/
def roundRobin (numThreads : ℕ) (lastThread : ℤ) (c : ℕ) : List ℕ :=
  (range c).map fun j : ℕ => ((lastThread + 1 + j) % numThreads).toNat

theorem roundRobin_length (lastThread : ℤ) (c : ℕ) : (roundRobin numThreads lastThread c).length = c := by
  simp [roundRobin]

/-- The first socket goes to the next worker, the others follow from there. -/
theorem roundRobin_succ (hT : 0 < numThreads) (lastThread : ℤ) (c : ℕ) :
    roundRobin numThreads lastThread (c + 1) =
      ((lastThread + 1) % numThreads).toNat ::
        roundRobin numThreads ((lastThread + 1) % numThreads).toNat c := by
  have hnn : 0 ≤ (lastThread + 1) % (numThreads : ℤ) := Int.emod_nonneg _ (by omega)
  rw [roundRobin, range_succ_eq_map, map_cons, map_map, roundRobin]
  congr 1
  · simp
  · apply map_congr_left
    intro j _
    simp only [Function.comp_apply, Int.toNat_of_nonneg hnn]
    rw [Nat.cast_succ, show lastThread + 1 + ((j : ℤ) + 1) = (lastThread + 1) + (1 + j) from by ring,
      show (lastThread + 1) % (numThreads : ℤ) + 1 + (j : ℤ) = (lastThread + 1) % numThreads + (1 + j) from by ring,
      Int.emod_add_emod]

theorem roundRobin_count (hT : 0 < numThreads) (lastThread : ℤ) (w : ℕ) (hw : w < numThreads) :
    (roundRobin numThreads lastThread numThreads).count w = 1 := by
  have hnn : ∀ x : ℤ, 0 ≤ x % (numThreads : ℤ) := fun x => Int.emod_nonneg x (by omega)
  have hlt : ∀ x : ℤ, x % (numThreads : ℤ) < numThreads := fun x => Int.emod_lt_of_pos x (by omega)
  have hnodup : (roundRobin numThreads lastThread numThreads).Nodup := by
    apply List.Nodup.map_on _ nodup_range
    intro i hi j hj hij
    rw [mem_range] at hi hj
    have heq : (lastThread + 1 + i) % (numThreads : ℤ) = (lastThread + 1 + j) % numThreads := by
      have h1 := hnn (lastThread + 1 + i)
      have h2 := hnn (lastThread + 1 + j)
      omega
    rw [Int.emod_add_cancel_left, Int.emod_eq_of_lt (by omega) (by omega), Int.emod_eq_of_lt (by omega) (by omega)]
      at heq
    omega
  have hsub : roundRobin numThreads lastThread numThreads ⊆ range numThreads := by
    intro x hx
    obtain ⟨j, -, rfl⟩ := mem_map.mp hx
    rw [mem_range]
    have h1 := hnn (lastThread + 1 + j)
    have h2 := hlt (lastThread + 1 + j)
    omega
  have hperm := (subperm_of_subset hnodup hsub).perm_of_length_le
    (by rw [roundRobin_length, length_range])
  rw [hperm.count_eq w]
  exact count_eq_one_of_mem nodup_range (mem_range.mpr hw)

theorem boundRun_succ (calls : ℕ → SocketCalls) (m : ℕ) :
    boundRun calls (m + 1) = if calls 0 = .bound then boundRun (fun t => calls (t + 1)) m + 1 else 0 := by
  rw [boundRun, range_succ_eq_map, takeWhile_cons]
  by_cases h : calls 0 = .bound
  · simp only [h, decide_true, if_true, length_cons, takeWhile_map, length_map, boundRun]
    rfl
  · simp [h]

theorem boundRun_le (calls : ℕ → SocketCalls) (m : ℕ) : boundRun calls m ≤ m := by
  have := (List.takeWhile_prefix (fun t => decide (calls t = .bound)) (l := range m)).length_le
  rwa [length_range] at this

theorem boundRun_of_bound (calls : ℕ → SocketCalls) (m : ℕ) (h : ∀ t < m, calls t = .bound) :
    boundRun calls m = m := by
  rw [boundRun, takeWhile_eq_self_iff.mpr, length_range]
  intro t ht
  exact decide_eq_true (h t (mem_range.mp ht))

/-- **One address.**  It gets a socket for each call that succeeds before one fails, but no more than the counter
allows, and leaves the counter as `thdAfter` says. -/
theorem nextSocket_spec (hT : 0 < numThreads) (fuel : ℕ) : ∀ (calls : ℕ → SocketCalls) (t : ℕ)
    (st : Listeners),
    st.thd ≤ n → n + 1 - st.thd ≤ fuel → (∀ t, (calls t).skipped = true ∨ calls t = .bound) →
    ∃ lastThread, nextSocket numThreads n calls fuel t st =
      (⟨thdAfter n st.thd fun j => calls (t + j), lastThread⟩,
        roundRobin numThreads st.lastThread (boundRun (fun j => calls (t + j)) (n + 1 - st.thd)), .next) := by
  induction fuel with
  | zero => intro calls t st hle hfuel _; omega
  | succ fuel ih =>
    intro calls t st hle hfuel hcalls
    have hrun := boundRun_succ (fun j => calls (t + j)) (n - st.thd)
    rw [show n - st.thd + 1 = n + 1 - st.thd from by omega] at hrun
    simp only [Nat.add_zero] at hrun
    rcases hcalls t with hskip | hbound
    · have hne : calls t ≠ .bound := by
        intro hb
        rw [hb] at hskip
        exact absurd hskip (by decide)
      rw [if_neg hne] at hrun
      have hafter : thdAfter n st.thd (fun j => calls (t + j)) = st.thd := by
        rw [thdAfter, hrun, if_neg (by omega), Nat.add_zero]
      rw [hrun, hafter]
      refine ⟨st.lastThread, ?_⟩
      rw [nextSocket]
      cases hc : calls t <;> simp_all [SocketCalls.skipped, roundRobin]
    · rw [if_pos hbound] at hrun
      rw [nextSocket]
      simp only [hbound, dispatchConnNew]
      have hshift : (fun j => calls (t + 1 + j)) = fun j => calls (t + (j + 1)) := by
        funext j
        rw [show t + 1 + j = t + (j + 1) from by omega]
      rcases Nat.lt_or_ge st.thd n with hlt | hge
      · obtain ⟨lastThread, hrec⟩ := ih calls (t + 1)
          ⟨st.thd + 1, ((st.lastThread + 1) % (numThreads : ℤ)).toNat⟩ (by simp only; omega) (by simp only; omega)
          hcalls
        simp only [hshift] at hrec
        have hafter : thdAfter n (st.thd + 1) (fun j => calls (t + (j + 1)))
            = thdAfter n st.thd fun j => calls (t + j) := by
          rw [thdAfter, thdAfter, hrun, show n + 1 - (st.thd + 1) = n - st.thd from by omega]
          split
          · rw [if_pos (by omega)]
          · rw [if_neg (by omega)]
            omega
        refine ⟨lastThread, ?_⟩
        simp only [hlt, if_true]
        rw [hrec, hrun, roundRobin_succ hT, hafter, show n + 1 - (st.thd + 1) = n - st.thd from by omega]
      · have hzero : n - st.thd = 0 := by omega
        have hone : boundRun (fun j => calls (t + j)) (n + 1 - st.thd) = 1 := by
          rw [hrun, hzero]
          rfl
        have hafter : thdAfter n st.thd (fun j => calls (t + j)) = 0 := by
          rw [thdAfter, hone, if_pos (by omega)]
        refine ⟨((st.lastThread + 1) % (numThreads : ℤ)).toNat, ?_⟩
        simp only [show ¬ st.thd < n from by omega, if_false]
        rw [hone, hafter]
        simp [roundRobin]

theorem thdAfter_le (thd : ℕ) (calls : ℕ → SocketCalls) (h : thd ≤ n) : thdAfter n thd calls ≤ n := by
  have := boundRun_le calls (n + 1 - thd)
  rw [thdAfter]
  split
  · omega
  · omega

/-! ### All addresses -/

/-- An address behind others that were skipped over or got sockets is entered with the counter they left. -/
theorem serverSocketLoop_at (hT : 0 < numThreads) (before after : List (ℕ → SocketCalls))
    (calls : ℕ → SocketCalls) : ∀ st : Listeners, st.thd ≤ n →
    (∀ a ∈ before ++ [calls], ∀ t, (a t).skipped = true ∨ a t = .bound) →
    ∃ lastThread, (serverSocketLoop numThreads n (before ++ calls :: after) st).2[before.length]? =
      some (roundRobin numThreads lastThread (boundRun calls (n + 1 - before.foldl (thdAfter n) st.thd))) := by
  induction before with
  | nil =>
    intro st hle hcalls
    obtain ⟨lastThread, hnext⟩ := nextSocket_spec (n := n) hT (n + 1) calls 0 st hle (by omega)
      (hcalls calls (by simp))
    simp only [Nat.zero_add] at hnext
    refine ⟨st.lastThread, ?_⟩
    simp only [nil_append, serverSocketLoop, hnext]
    rfl
  | cons a before ih =>
    intro st hle hcalls
    obtain ⟨lastThread, hnext⟩ := nextSocket_spec (n := n) hT (n + 1) a 0 st hle (by omega)
      (hcalls a (by simp))
    simp only [Nat.zero_add] at hnext
    obtain ⟨lastThread', hrest⟩ := ih ⟨thdAfter n st.thd a, lastThread⟩ (thdAfter_le _ _ hle)
      (fun b hb => hcalls b (by simp only [cons_append, mem_cons]; exact Or.inr hb))
    refine ⟨lastThread', ?_⟩
    simp only [cons_append, serverSocketLoop, hnext, length_cons, getElem?_cons_succ,
      foldl_cons]
    exact hrest

theorem leftOver_le (before : List (ℕ → SocketCalls)) : leftOver n before ≤ n := by
  have hgen : ∀ thd, thd ≤ n → before.foldl (thdAfter n) thd ≤ n := by
    induction before with
    | nil => intro thd h; exact h
    | cons a before ih => intro thd h; exact ih _ (thdAfter_le thd a h)
  exact hgen 0 (Nat.zero_le n)

end

/-- `num_threads_per_udp` is positive, as the number of workers is. -/
theorem numThreadsPerUdp_pos (inter : Option (List UInt8)) (numThreads : ℕ) (h : 0 < numThreads) :
    0 < numThreadsPerUdp inter numThreads := by
  unfold numThreadsPerUdp
  split
  · exact h
  · split
    · exact Nat.one_pos
    · exact h

/-- **One socket for each worker.**  Take an address all of whose calls succeed, behind any addresses with any failures
that are skipped over.  It gets exactly `num_threads_per_udp` sockets, and each worker one of them when that is the
number of workers, exactly when the addresses that failed behind the last completed one left one socket bound. -/
theorem udp_sockets_iff (inter : Option (List UInt8)) (numThreads : ℕ) (hT : 0 < numThreads) (lastThread : ℤ)
    (before after : List (ℕ → SocketCalls)) (calls : ℕ → SocketCalls)
    (hbefore : ∀ a ∈ before, ∀ t, (a t).skipped = true ∨ a t = .bound) (hcalls : ∀ t, calls t = .bound) :
    (∃ tids, (serverSocket numThreads (numThreadsPerUdp inter numThreads) lastThread
        (before ++ calls :: after))[before.length]? = some tids ∧
      tids.length = numThreadsPerUdp inter numThreads ∧
      (numThreadsPerUdp inter numThreads = numThreads → ∀ w < numThreads, tids.count w = 1)) ↔
    leftOver (numThreadsPerUdp inter numThreads) before = 1 := by
  set n := numThreadsPerUdp inter numThreads with hn
  have hpos : 0 < n := numThreadsPerUdp_pos inter numThreads hT
  have hle : leftOver n before ≤ n := leftOver_le before
  obtain ⟨last, hat⟩ := serverSocketLoop_at (n := n) hT before after calls ⟨0, lastThread⟩ (Nat.zero_le n) (by
    intro a ha t
    rcases mem_append.mp ha with ha | ha
    · exact hbefore a ha t
    · rw [mem_singleton.mp ha]
      exact Or.inr (hcalls t))
  have hrun : boundRun calls (n + 1 - leftOver n before) = n + 1 - leftOver n before :=
    boundRun_of_bound calls _ fun t _ => hcalls t
  have hsome : (serverSocket numThreads n lastThread (before ++ calls :: after))[before.length]? =
      some (roundRobin numThreads last (n + 1 - leftOver n before)) := by
    rw [← hrun]
    exact hat
  constructor
  · intro hcase
    obtain ⟨tids, htids, hlen, -⟩ := hcase
    rw [hsome, Option.some.injEq] at htids
    rw [← htids, roundRobin_length] at hlen
    omega
  · intro hone
    rw [hone, Nat.add_sub_cancel] at hsome
    refine ⟨_, hsome, roundRobin_length _ _, fun heq w hw => ?_⟩
    rw [heq]
    exact roundRobin_count hT last w hw

/-- Four workers and two addresses of which the first fails at its second socket: the second gets its four. -/
theorem udp_sockets_behind_failure :
    (∃ tids, (serverSocket 4 4 (-1)
        [fun t => if t = 0 then .bound else .addrInUse, fun _ => .bound])[1]? = some tids ∧
      tids.length = 4 ∧ (numThreadsPerUdp none 4 = 4 → ∀ w < 4, tids.count w = 1)) ∧
    leftOver 4 [fun t => if t = 0 then .bound else .addrInUse] = 1 := by
  have hone : leftOver 4 [fun t => if t = 0 then .bound else .addrInUse] = 1 := by decide
  refine ⟨(udp_sockets_iff none 4 (by decide) (-1) [fun t => if t = 0 then .bound else .addrInUse] []
    (fun _ => .bound)
    ?_ (fun _ => rfl)).mpr hone, hone⟩
  intro a ha t
  rw [mem_singleton.mp ha]
  by_cases h : t = 0
  · simp [h]
  · simp [h, SocketCalls.skipped]

/-- **One socket too many.**  Four workers and one address without a failure: it gets five sockets, and the first
worker two of them. -/
theorem udp_sockets_one_more :
    serverSocket 4 (numThreadsPerUdp none 4) (-1) [fun _ => .bound] = [[0, 1, 2, 3, 0]] := by
  decide

end BmcCache
