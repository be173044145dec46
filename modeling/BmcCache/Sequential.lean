import BmcCache.Coherence
import BmcCache.Commands
import BmcCache.Trace

/-!
# The server with its kernel cache, one request after the other

A `Server` is a store together with `map_kcache`.  Each request is processed completely before the next one:

* a GET datagram runs through the ingress chain; if it is passed, the server's reply leaves through the egress chain;
* a mutating command, in a segment or a datagram, runs through the ingress chain and is then executed.

`sequential_transparency` is the result for runs of GETs and TCP `set`s: what the chain answers itself is what the
server would have answered.  It rests on one invariant: every valid entry holds the current item of the key it names.
-/

namespace BmcCache

structure Server where
  store : Store
  kcache : KCache

def Server.start (store : Store) : Server := ⟨store, KCache.zeroed⟩

structure IsDatagram (text pkt : Bytes) : Prop where
  protocol : pkt.getD 23 0 = ipprotoUdp
  port : be16At pkt 36 = memcachedPort
  text_eq : pkt.drop sizeofHeaders = text

/-- One request, with the frame and the maps it meets.  A GET brings the datagram of the server's reply, which only
leaves if the request is passed up; a command brings the store it leaves behind. -/
inductive Request where
  | get (ks : List Key) (frame : XdpState) (reply : SkBuff) (stats : StatsMap)
  | command (c : Command) (frame : XdpState) (after : Store)

/-- The ingress chain on a frame, with every program loaded and the cache as it is. -/
def Server.ingress (y : Server) (frame : XdpState) : XdpState × XdpAction :=
  runXdp (fun _ => true) (fun _ => y.kcache) frame

def Server.step (y : Server) : Request → Server
  | .get _ frame reply stats =>
    let r := y.ingress frame
    if r.2 = .pass then { y with kcache := (runTc (fun _ => true) ⟨reply, stats, r.1.kcache⟩).1.kcache }
    else { y with kcache := r.1.kcache }
  | .command _ frame after => ⟨after, (y.ingress frame).1.kcache⟩

/-- The request is what it says: the frame carries it, the reply is the server's, the command has its effect. -/
def Request.Valid (y : Server) : Request → Prop
  | .get ks frame reply _ => ks ≠ [] ∧ IsGetOf ks frame.ctx.packet ∧ IsReply (getReply y.store ks) reply
  | .command c frame after =>
    (IsSegment c.text frame.ctx.packet ∨ IsDatagram c.text frame.ctx.packet) ∧ c.Effect y.store after

@[simp] theorem Server.step_get_store (y : Server) (ks : List Key) (frame : XdpState) (reply : SkBuff)
    (stats : StatsMap) : (y.step (.get ks frame reply stats)).store = y.store := by
  simp only [Server.step]
  split <;> rfl

/-! ### What requests do to the cache -/

section

variable {R : Key → Bytes → Prop} {y : Server}

/-- A GET keeps what the cache holds allowed, if the items of the requested keys are. -/
theorem Server.holds_get (h : y.kcache.Holds R) (ks : List Key) (frame : XdpState) (reply : SkBuff)
    (stats : StatsMap) (hreply : IsReply (getReply y.store ks) reply)
    (hR : ∀ k ∈ ks, ∀ it, y.store k = some it → R k it.taken) :
    (y.step (.get ks frame reply stats)).kcache.Holds R := by
  have hin : (y.ingress frame).1.kcache.Holds R := holds_frame h frame
  simp only [Server.step]
  split
  · exact holds_egress hin y.store ks reply stats hreply hR
  · exact hin

theorem Server.holds_set (h : y.kcache.Holds R) (k : Key) (it : Item) (exptime : Bytes) (frame : XdpState)
    (hseg : IsSegment (Command.store .set k it exptime).text frame.ctx.packet) :
    (y.ingress frame).1.kcache.Holds fun k' text => R k' text ∧ k' ≠ k := by
  obtain ⟨rest, htext⟩ := Command.set_text k it exptime
  rw [htext] at hseg
  exact holds_set_segment h k rest frame hseg

/-- **An answer of the ingress chain**: one block for each requested word that is served, each with a text that is
allowed for the key it names. -/
structure Server.Answers (y : Server) (frame : XdpState) (R : Key → Bytes → Prop) : Prop where
  payload : (y.ingress frame).1.ctx.packet.drop sizeofHeaders =
    (servedBlocks y.kcache (requestWords (keyBytes frame.ctx.packet))).flatten ++ endLine
  blocks : ∀ b ∈ servedBlocks y.kcache (requestWords (keyBytes frame.ctx.packet)),
    ∃ k text, b = valueWord ++ k.bytes ++ space :: text ∧ R k text

theorem Server.answers (h : y.kcache.Holds R) (frame : XdpState) (htx : (y.ingress frame).2 = .tx) :
    y.Answers frame R := by
  obtain ⟨hpay, hwords⟩ := runXdp_servedBlocks htx
  refine ⟨hpay, fun b hb => ?_⟩
  obtain ⟨hmem, hne⟩ := List.mem_filter.mp hb
  obtain ⟨w, hw, rfl⟩ := List.mem_map.mp hmem
  obtain ⟨k, text, hR, -, -, hserve⟩ := h.served w (hwords w hw) (by simpa using hne)
  exact ⟨k, text, hserve, hR⟩

end

/-! ### Runs of GETs and TCP sets -/

/-- The requests of a plain run over the keys `K`: single-key GETs, and `set`s without expiry that arrive alone in a
segment, hold no `'\n'` and are stored. -/
def Request.Plain (K : Key → Prop) (y : Server) (r : Request) : Prop :=
  r.Valid y ∧ match r with
    | .get ks _ _ _ => ∃ k, ks = [k] ∧ K k
    | .command c frame after => ∃ k it, K k ∧ c = .store .set k it [48] ∧ lf ∉ it.value ∧
        IsSegment c.text frame.ctx.packet ∧ after = y.store.put k (some it)

/-- The current item of the key, and the key is one of the run's. -/
def Current (K : Key → Prop) (store : Store) (k : Key) (text : Bytes) : Prop :=
  K k ∧ ∃ it, store k = some it ∧ text = it.text

/-- **The coherence invariant**: stored data contains no `'\n'`, and every valid entry holds the current item of a
key of the run. -/
structure Server.Coherent (K : Key → Prop) (y : Server) : Prop where
  plain : ∀ k it, y.store k = some it → lf ∉ it.value
  current : y.kcache.Holds (Current K y.store)

/-- **One request.** -/
theorem Server.step_coherent (K : Key → Prop) (y : Server) (r : Request) (h : y.Coherent K) (hr : r.Plain K y) :
    (y.step r).Coherent K := by
  cases r with
  | get ks frame reply stats =>
    obtain ⟨⟨-, -, hreply⟩, k, rfl, hk⟩ := hr
    refine ⟨by rw [Server.step_get_store]; exact h.plain, ?_⟩
    rw [Server.step_get_store]
    refine Server.holds_get h.current [k] frame reply stats hreply ?_
    intro k' hk' it hit
    obtain rfl := List.mem_singleton.mp hk'
    exact ⟨hk, it, hit, it.taken_eq_text (h.plain k' it hit)⟩
  | command c frame after =>
    obtain ⟨-, k, it, hk, rfl, hlf, hseg, rfl⟩ := hr
    refine ⟨?_, (Server.holds_set h.current k it _ frame hseg).mono ?_⟩
    · intro k' it' hit'
      by_cases hkk : k' = k
      · subst hkk
        have heq : some it = some it' := (Store.put_self y.store k' (some it)).symm.trans hit'
        rw [← Option.some.inj heq]
        exact hlf
      · exact h.plain k' it' ((Store.put_ne y.store _ hkk).symm.trans hit')
    · intro k' text hcase
      obtain ⟨⟨hK, it', hit', htext⟩, hne⟩ := hcase
      exact ⟨hK, it', (Store.put_ne y.store _ hne).trans hit', htext⟩

/-- What a coherent cache serves for a key of the run is the block of its current item. -/
theorem Server.Coherent.served {K : Key → Prop} {y : Server} (h : y.Coherent K)
    (hK : ∀ k k', K k → K k' → k.bytes <+: k'.bytes → fnv1a k.bytes = fnv1a k'.bytes → k = k')
    (k : Key) (hk : K k)
    (hne : serveBytes y.kcache k.bytes ≠ []) :
    ∃ it, y.store k = some it ∧ serveBytes y.kcache k.bytes = it.block k := by
  obtain ⟨k', text, ⟨hK', it, hit, htext⟩, hpre, hhash, hserve⟩ := h.current.served k.bytes k.space_notMem hne
  obtain rfl := hK k k' hk hK' hpre hhash.symm
  exact ⟨it, hit, by rw [hserve, it.block_eq, htext]⟩

/-- **Sequential transparency.**  In every run of GETs and TCP `set`s over keys of which none is a proper prefix of
another with the same hash, started with an empty cache, every answer of the ingress chain to a GET has behind its
headers exactly the bytes of the server's reply. -/
theorem sequential_transparency (K : Key → Prop)
    (hK : ∀ k k', K k → K k' → k.bytes <+: k'.bytes → fnv1a k.bytes = fnv1a k'.bytes → k = k') (store : Store)
    (hstore : ∀ k it, store k = some it → lf ∉ it.value) (rs : List Request)
    (hall : Trace.All Server.step (Request.Plain K) (Server.start store) rs) (k : Key) (hk : K k)
    (frame : XdpState) (hget : IsGetOf [k] frame.ctx.packet)
    (htx : ((Trace.run Server.step (Server.start store) rs).ingress frame).2 = .tx) :
    ((Trace.run Server.step (Server.start store) rs).ingress frame).1.ctx.packet.drop sizeofHeaders
      = getReply (Trace.run Server.step (Server.start store) rs).store [k] := by
  set y := Trace.run Server.step (Server.start store) rs
  have hy : y.Coherent K :=
    Trace.run_invariant (Server.Coherent K) (Server.step_coherent K) _ rs ⟨hstore, holds_zeroed _⟩ hall
  obtain ⟨htext, hne⟩ := runXdp_get_text (by simp) hget htx
  simp only [List.flatMap_cons, List.flatMap_nil, List.append_nil] at htext hne
  obtain ⟨it, hit, hserve⟩ := hy.served hK k hk hne
  rw [Server.ingress, htext, hserve]
  simp [getReply, getBlocks, hit]

/-- A `set`, a GET that misses and fills the cache, and a GET that is answered. -/
theorem sequential_transparency_hit :
    let k := Key.ofBytes [97, 98, 99, 100, 101, 102, 103, 104, 105, 106, 107, 108] (by decide)
    let set : Command := .store .set k ⟨7, [120]⟩ [48]
    let store := Store.put (fun _ => none) k (some ⟨7, [120]⟩)
    let frame := XdpState.received KCache.zeroed (udpFrame (getText [k] ++ []))
    let rs : List Request :=
      [.command set (XdpState.received KCache.zeroed (tcpFrame set.text)) store,
        .get [k] frame (SkBuff.ofFrame (udpFrame (getReply store [k]))) StatsMap.zeroed]
    ((Trace.run Server.step (Server.start fun _ => none) rs).ingress frame).2 = .tx ∧
      ((Trace.run Server.step (Server.start fun _ => none) rs).ingress frame).1.ctx.packet.drop sizeofHeaders
        = getReply (Trace.run Server.step (Server.start fun _ => none) rs).store [k] := by
  intro k set store frame rs
  have htx : ((Trace.run Server.step (Server.start fun _ => none) rs).ingress frame).2 = .tx := by decide +kernel
  have hseg : IsSegment set.text (XdpState.received KCache.zeroed (tcpFrame set.text)).ctx.packet :=
    isSegment_tcpFrame _
  have hall : Trace.All Server.step (Request.Plain (· = k)) (Server.start fun _ => none) rs :=
    ⟨⟨⟨.inl hseg, .inl rfl⟩, k, ⟨7, [120]⟩, rfl, rfl, by decide, hseg, rfl⟩,
      ⟨⟨by simp, isGetOf_udpFrame [k] [], isReply_udpFrame _⟩, k, rfl, rfl⟩, trivial⟩
  have hK : ∀ j j' : Key, j = k → j' = k → j.bytes <+: j'.bytes → fnv1a j.bytes = fnv1a j'.bytes → j = j' :=
    fun j j' hj hj' _ _ => hj.trans hj'.symm
  have hpay := sequential_transparency (· = k) hK (fun _ => none) (fun _ _ h => nomatch h) rs hall k rfl frame
    (isGetOf_udpFrame [k] []) htx
  exact ⟨htx, hpay⟩

end BmcCache
