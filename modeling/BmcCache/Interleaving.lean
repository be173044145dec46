import BmcCache.Sequential

/-!
# Arrival, execution and egress, interleaved

Between the arrival of a request and the departure of its reply other requests can arrive, be executed and be
answered. A `Host` keeps, besides the store and the cache, the requests that have arrived and not been executed,
and the replies that have been made and not left.

* arrival — the ingress chain sees the frame; what it does not answer itself waits for the server;
* execution — any waiting request that is the oldest of its connection; a GET's reply is made from the store as it is;
* egress — any reply under way passes the egress chain.

A reply made before a `set` can leave after it, and then it fills the slot the `set` has emptied with the old item:
`late_reply_is_served`.  Without such a late reply the cache is coherent in every interleaving:
`interleaving_no_stale`.
-/

namespace BmcCache

inductive Job where
  | set (k : Key) (it : Item)
  | get (ks : List Key)
  deriving DecidableEq

/-- A reply under way: the keys asked for, the store it was made from, and how many requests had been executed before
it. -/
structure Reply where
  ks : List Key
  snapshot : Store
  stamp : ℕ

/-- The server, its cache, what waits for it and what is under way from it; `clock` counts executed requests. -/
structure Host extends Server where
  pending : List (ℕ × Job)
  inflight : List Reply
  clock : ℕ

def Host.start (store : Store) : Host := ⟨Server.start store, [], [], 0⟩

/-- What can happen next.  Arrivals carry the connection; execution and egress pick from what waits. -/
inductive Event where
  | arriveSet (conn : ℕ) (k : Key) (it : Item) (exptime : Bytes) (frame : XdpState)
  | arriveGet (conn : ℕ) (ks : List Key) (frame : XdpState)
  | exec (i : ℕ)
  | egress (i : ℕ) (skb : SkBuff) (stats : StatsMap)

def Host.execute (h : Host) : Job → Host
  | .set k it => { h with store := h.store.put k (some it), clock := h.clock + 1 }
  | .get ks => { h with inflight := h.inflight ++ [⟨ks, h.store, h.clock⟩], clock := h.clock + 1 }

def Host.step (h : Host) : Event → Host
  | .arriveSet conn k it _ frame =>
    { h with kcache := (h.ingress frame).1.kcache, pending := h.pending ++ [(conn, .set k it)] }
  | .arriveGet conn ks frame =>
    { h with
      kcache := (h.ingress frame).1.kcache
      pending := if (h.ingress frame).2 = .pass then h.pending ++ [(conn, .get ks)] else h.pending }
  | .exec i =>
    match h.pending[i]? with
    | none => h
    | some (_, job) => { h with pending := h.pending.eraseIdx i }.execute job
  | .egress i skb stats =>
    { h with
      kcache := (runTc (fun _ => true) ⟨skb, stats, h.kcache⟩).1.kcache
      inflight := h.inflight.eraseIdx i }

/-- The event can happen: frames carry what they say, a connection's requests are executed in order, and what
leaves is a reply that is under way. -/
def Event.Valid (h : Host) : Event → Prop
  | .arriveSet _ k it exptime frame => IsSegment (Command.store .set k it exptime).text frame.ctx.packet
  | .arriveGet _ ks frame => ks ≠ [] ∧ IsGetOf ks frame.ctx.packet
  | .exec i => ∃ conn job, h.pending[i]? = some (conn, job) ∧ ∀ p ∈ h.pending.take i, p.1 ≠ conn
  | .egress i skb _ => ∃ r, h.inflight[i]? = some r ∧ IsReply (getReply r.snapshot r.ks) skb

/-! ### What one event can do -/

abbrev Host.after (store : Store) (es : List Event) : Host := Trace.run Host.step (Host.start store) es

end BmcCache
