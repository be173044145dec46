import BmcCache.Memcached

/-!
# The commands that change the store

The mutating commands of `process_command`, with the line a client sends for each and the effect it has on the store.

* `Command.text` — what is on the wire;
* `Command.Effect` — which stores may be left behind.  Whatever depends on something the store does not show here
  (CAS values, expiry times, memory, the settings of the server) is left open: both outcomes are effects.  Of the
  number `incr` and `decr` write only its form is kept, decimal digits, padded with spaces when the old data was
  longer and is overwritten in place.
-/

namespace BmcCache

inductive StoreVerb where
  | set
  | add
  | replace
  | append
  | prepend
  deriving DecidableEq, Repr

/-- `"set"`, `"add"`, `"replace"`, `"append"`, `"prepend"` -/
def StoreVerb.word : StoreVerb → Bytes
  | .set => [115, 101, 116]
  | .add => [97, 100, 100]
  | .replace => [114, 101, 112, 108, 97, 99, 101]
  | .append => [97, 112, 112, 101, 110, 100]
  | .prepend => [112, 114, 101, 112, 101, 110, 100]

/-- A mutating command; expiry times, CAS values and deltas are kept as the text the client sends, and of the options
of `ms` the flags `F` and the size `S`. -/
inductive Command where
  | store (verb : StoreVerb) (k : Key) (it : Item) (exptime : Bytes)
  | cas (k : Key) (it : Item) (exptime unique : Bytes)
  | incr (k : Key) (delta : Bytes)
  | decr (k : Key) (delta : Bytes)
  | delete (k : Key)
  | touch (k : Key) (exptime : Bytes)
  | flushAll
  | metaSet (k : Key) (it : Item)
  | metaDelete (k : Key)

def Command.text : Command → Bytes
  | .store verb k it exptime =>
    verb.word ++ space :: k.bytes ++ space :: itoa it.flags.toNat ++ space :: exptime ++
      space :: itoa it.value.length ++ crlf ++ (it.value ++ crlf)
  | .cas k it exptime unique =>
    [99, 97, 115] ++ space :: k.bytes ++ space :: itoa it.flags.toNat ++ space :: exptime ++
      space :: itoa it.value.length ++ space :: unique ++ crlf ++ (it.value ++ crlf)
  | .incr k delta => [105, 110, 99, 114] ++ space :: k.bytes ++ space :: delta ++ crlf
  | .decr k delta => [100, 101, 99, 114] ++ space :: k.bytes ++ space :: delta ++ crlf
  | .delete k => [100, 101, 108, 101, 116, 101] ++ space :: k.bytes ++ crlf
  | .touch k exptime => [116, 111, 117, 99, 104] ++ space :: k.bytes ++ space :: exptime ++ crlf
  | .flushAll => [102, 108, 117, 115, 104, 95, 97, 108, 108] ++ crlf
  | .metaSet k it =>
    [109, 115] ++ space :: k.bytes ++ space :: 70 :: 83 :: space :: itoa it.flags.toNat ++
      space :: itoa it.value.length ++ crlf ++ (it.value ++ crlf)
  | .metaDelete k => [109, 100] ++ space :: k.bytes ++ crlf

/-- The data `incr` and `decr` leave for the number `n`: a new item, or the old one overwritten in place. -/
def DeltaValue (old new : Bytes) : Prop :=
  ∃ n < 2 ^ 64, new = itoa n ∨ new = itoa n ++ List.replicate (old.length - (itoa n).length) space

/-- `do_store_item` for the verbs that do not look at CAS values. -/
def StoreVerb.apply (store : Store) (k : Key) (it : Item) : StoreVerb → Store
  | .set => store.put k (some it)
  | .add => if store k = none then store.put k (some it) else store
  | .replace => if store k = none then store else store.put k (some it)
  | .append =>
    match store k with
    | none => store
    | some old => store.put k (some { old with value := old.value ++ it.value })
  | .prepend =>
    match store k with
    | none => store
    | some old => store.put k (some { old with value := it.value ++ old.value })

/-- What is left when no item could be allocated: a refused `set` takes the old item with it. -/
def StoreVerb.refuse (store : Store) (k : Key) : StoreVerb → Store
  | .set => store.put k none
  | _ => store

def Command.Effect (store : Store) : Command → Store → Prop
  | .store verb k it _, after => after = verb.apply store k it ∨ after = verb.refuse store k
  | .cas k it _ _, after => after = store ∨ store k ≠ none ∧ after = store.put k (some it)
  | .incr k _, after | .decr k _, after =>
    after = store ∨ ∃ old new, store k = some old ∧ DeltaValue old.value new ∧
      after = store.put k (some { old with value := new })
  | .delete k, after => after = store.put k none
  | .touch k _, after => after = store ∨ after = store.put k none
  | .flushAll, after => after = store ∨ after = fun _ => none
  | .metaSet k it, after => after = store.put k (some it) ∨ after = store.put k none
  | .metaDelete k, after => after = store ∨ after = store.put k none

theorem Command.set_text (k : Key) (it : Item) (exptime : Bytes) :
    ∃ rest, (Command.store .set k it exptime).text = setWord ++ k.bytes ++ space :: rest := by
  refine ⟨itoa it.flags.toNat ++ space :: exptime ++ space :: itoa it.value.length ++ crlf ++
    (it.value ++ crlf), ?_⟩
  simp [Command.text, StoreVerb.word, setWord, space]

end BmcCache
