import Blamejs.Js.Arithmetic
import Blamejs.Lib.InvertedIndex
import Blamejs.Lib.Run

/-!
# The memory cache (`lib/cache.js`, `_memoryBackend`)

A `Map` keeps its entries in the order they were set, so `entries` is a list and
its head is `entries.keys().next().value`, the one the eviction loops take.
`Infinity` is `none` wherever the code compares against it; sizes and their total are
Numbers, as `sizeOf` gives them. The backend's
functions run to their end without an await, so each is one step; `St` puts
them side by side and remembers, for the recency statements only, the keys in
the order they were used.
-/

namespace Blamejs.MemoryCache

open InvertedIndex Js Run

variable {K T V : Type} [DecidableEq K] [DecidableEq T]

/-- A time or a span in milliseconds; `none` is `Infinity`. -/
abbrev Millis := Option Int

structure Entry (T V : Type) where
  value : V
  expiresAt : Millis
  ttlMs : Option Millis
  bytes : Double
  tags : Option (List T)

/-- What `_validateMaxBytes` lets through, `Infinity` aside. -/
abbrev MaxBytes := {x : Double // x.isFinite = true ∧ x.lt (Double.ofInt (1 : Nat)) = false}

/-- The options of the backend; `sizeOf` may throw. -/
structure Config (V : Type) where
  maxEntries : Option Nat
  maxBytes : Option MaxBytes
  sizeOf : V → Option Double
  slidingTtl : Bool

/-- The `meta` argument of `set` and `update`. -/
structure Meta (T : Type) where
  ttlMs : Option Millis
  tags : Option (List T)

structure Cache (K T V : Type) where
  entries : List (K × Entry T V)
  totalBytes : Double
  tagIndex : Index T K

def Cache.empty : Cache K T V := ⟨[], .zero false, fun _ => none⟩

def Entry.tagList (entry : Entry T V) : List T := entry.tags.getD []

/-- `entries.get(key)`. -/
def Cache.find (c : Cache K T V) (key : K) : Option (Entry T V) :=
  (c.entries.find? fun x => x.1 = key).map Prod.snd

/-- `entries.delete(key)`. -/
def Cache.delete (c : Cache K T V) (key : K) : Cache K T V :=
  { c with entries := c.entries.filter fun x => x.1 ≠ key }

/-- `_isExpired`. -/
def Entry.isExpired (entry : Entry T V) (now : Int) : Bool :=
  entry.expiresAt.any fun t => t ≤ now

/-- The counter after an entry's bytes are taken off; it stops at zero. -/
def bytesLess (total bytes : Double) : Double :=
  let less := total.sub bytes.orZero
  if less.lt (.zero false) then .zero false else less

/-- `_untrack`. -/
def Cache.untrack (c : Cache K T V) (key : K) (entry : Entry T V) : Cache K T V :=
  { c with
    totalBytes := bytesLess c.totalBytes entry.bytes
    tagIndex := entry.tagList.foldl (drop key) c.tagIndex }

/-- `_untrack` and the `entries.delete` that always follows it. -/
def Cache.remove (c : Cache K T V) (key : K) (entry : Entry T V) : Cache K T V :=
  (c.untrack key entry).delete key

/-- `entries.set(key, entry)` for a key that is not there. -/
def Cache.append (c : Cache K T V) (key : K) (entry : Entry T V) : Cache K T V :=
  { c with entries := c.entries ++ [(key, entry)] }

/-! ## Eviction -/

/-- The body of both eviction loops. -/
def Cache.evictOldest (c : Cache K T V) : Cache K T V :=
  match c.entries with
  | [] => c
  | (oldest, e) :: _ => c.remove oldest e

/-- A loop that evicts while `full` holds; it needs one round for each entry at
most. -/
def evictWhile (full : Cache K T V → Bool) : Nat → Cache K T V → Cache K T V
  | 0, c => c
  | n + 1, c => if full c then evictWhile full n c.evictOldest else c

def overEntries (cfg : Config V) (c : Cache K T V) : Bool :=
  cfg.maxEntries.any fun max => c.entries.length > max

def overBytes (cfg : Config V) (c : Cache K T V) : Bool :=
  cfg.maxBytes.any fun max => max.val.lt c.totalBytes ∧ c.entries.length > 0

/-- `_evictByCounts`. -/
def Cache.evictByCounts (cfg : Config V) (c : Cache K T V) : Cache K T V :=
  let c := evictWhile (overEntries cfg) c.entries.length c
  evictWhile (overBytes cfg) c.entries.length c

/-! ## The operations -/

/-- `get`: a hit slides the expiry, when the cache does that, and moves the entry
to the young end. -/
def get (cfg : Config V) (c : Cache K T V) (key : K) (now : Int) : Cache K T V × Option V :=
  match c.find key with
  | none => (c, none)
  | some entry =>
      if entry.isExpired now then (c.remove key entry, none)
      else ((c.delete key).append key (slide entry), some entry.value)
where
  slide (entry : Entry T V) : Entry T V :=
    match cfg.slidingTtl, entry.ttlMs with
    | true, some (some ttl) => { entry with expiresAt := some (now + ttl) }
    | _, _ => entry

/-- The entry `set` stores, once `sizeOf` has answered. -/
def newEntry (value : V) (expiresAt : Millis) (info : Meta T) (bytes : Double) : Entry T V :=
  ⟨value, expiresAt, info.ttlMs, bytes, info.tags⟩

/-- `set`: the second component says whether it returned; when `sizeOf` throws,
the entry that was there is gone all the same. -/
def set (cfg : Config V) (c : Cache K T V) (key : K) (value : V) (expiresAt : Millis)
    (info : Meta T) : Cache K T V × Bool :=
  let c := match c.find key with
    | some prior => c.remove key prior
    | none => c
  match cfg.sizeOf value with
  | none => (c, false)
  | some bytes =>
      let entry := newEntry value expiresAt info bytes.orZero
      let c := c.append key entry
      let c := { c with
        totalBytes := c.totalBytes.add bytes.orZero
        tagIndex := entry.tagList.foldl (add key) c.tagIndex }
      (c.evictByCounts cfg, true)

/-- `del`. -/
def del (c : Cache K T V) (key : K) : Cache K T V × Bool :=
  match c.find key with
  | none => (c, false)
  | some entry => (c.remove key entry, true)

/-- What a mutator decides: `{ abort }`, `{ delete: true }`, or `{ value }` with a
lifetime of its own or without; `none` when it throws. -/
inductive Decision (V D : Type) where
  | abort (data : D)
  | delete
  | commit (value : V) (ttlMs expiresAt : Option Millis)

/-- What `update` answers; `threw` when the mutator or `sizeOf` did. -/
inductive Updated (V D : Type) where
  | aborted (data : D)
  | deleted
  | updated (value : V)
  | threw

/-- The live value a mutator is shown. -/
def Cache.current (c : Cache K T V) (key : K) (now : Int) : Option V :=
  ((c.find key).filter fun e => ! e.isExpired now).map Entry.value

/-- The expiry a commit writes. -/
def effExpires (now : Int) (ttlMs expiresAt : Option Millis) (fallback : Millis) : Millis :=
  match ttlMs, expiresAt with
  | some ttl, _ => ttl.map (now + ·)
  | none, some at_ => at_
  | none, none => fallback

/-- `_updateEntry`. -/
def update {D : Type} (cfg : Config V) (c : Cache K T V) (key : K)
    (mutatorFn : Option V → Option (Decision V D)) (now : Int) (expiresAt : Millis)
    (info : Meta T) : Cache K T V × Updated V D :=
  match mutatorFn (c.current key now) with
  | none => (c, .threw)
  | some (.abort data) => (c, .aborted data)
  | some .delete =>
      match c.find key with
      | some entry => (c.remove key entry, .deleted)
      | none => (c, .deleted)
  | some (.commit value ttl exp) =>
      let (c', returned) := set cfg c key value (effExpires now ttl exp expiresAt) info
      (c', if returned then .updated value else .threw)

/-- `has`: does not touch the order. -/
def has (c : Cache K T V) (key : K) (now : Int) : Cache K T V × Bool :=
  match c.find key with
  | none => (c, false)
  | some entry => if entry.isExpired now then (c.remove key entry, false) else (c, true)

/-- `clear`, and what `close` does to the data. -/
def clear (_ : Cache K T V) : Cache K T V := .empty

/-- Removes a key if it is there: one round of the loops below. -/
def Cache.removeKey (c : Cache K T V) (key : K) : Cache K T V :=
  match c.find key with
  | some entry => c.remove key entry
  | none => c

/-- `invalidateTag`. -/
def invalidateTag (c : Cache K T V) (tag : T) : Cache K T V :=
  ((c.tagIndex tag).getD []).foldl Cache.removeKey c

/-- One round of `_sweep`. -/
def Cache.sweepKey (now : Int) (c : Cache K T V) (key : K) : Cache K T V :=
  match c.find key with
  | some entry => if entry.isExpired now then c.remove key entry else c
  | none => c

/-- `_sweep`. -/
def sweep (c : Cache K T V) (now : Int) : Cache K T V :=
  (c.entries.map Prod.fst).foldl (Cache.sweepKey now) c

/-! ## Runs -/

inductive Action (K T V D : Type) where
  | set (key : K) (value : V) (expiresAt : Millis) (info : Meta T)
  | get (key : K) (now : Int)
  | update (key : K) (mutatorFn : Option V → Option (Decision V D)) (now : Int)
      (expiresAt : Millis) (info : Meta T)
  | del (key : K)
  | has (key : K) (now : Int)
  | invalidateTag (tag : T)
  | clear
  | sweep (now : Int)

/-- A cache and the keys used so far, oldest use first. -/
structure St (K T V : Type) where
  cache : Cache K T V
  uses : List K

def St.init : St K T V := ⟨.empty, []⟩

/-- The uses after an operation that used `key` or did not. -/
def St.used (s : St K T V) (c : Cache K T V) (key : K) (hit : Bool) : St K T V :=
  ⟨c, if hit then s.uses ++ [key] else s.uses⟩

def Updated.stored {V D : Type} : Updated V D → Bool
  | .updated _ => true
  | _ => false

def step {D : Type} (cfg : Config V) (s : St K T V) : Action K T V D → Option (St K T V)
  | .set key value expiresAt info =>
      let r := MemoryCache.set cfg s.cache key value expiresAt info
      some (s.used r.1 key r.2)
  | .get key now =>
      let r := MemoryCache.get cfg s.cache key now
      some (s.used r.1 key r.2.isSome)
  | .update key mutatorFn now expiresAt info =>
      let r := MemoryCache.update cfg s.cache key mutatorFn now expiresAt info
      some (s.used r.1 key r.2.stored)
  | .del key => some ⟨(MemoryCache.del s.cache key).1, s.uses⟩
  | .has key now => some ⟨(MemoryCache.has s.cache key now).1, s.uses⟩
  | .invalidateTag tag => some ⟨MemoryCache.invalidateTag s.cache tag, s.uses⟩
  | .clear => some ⟨MemoryCache.clear s.cache, s.uses⟩
  | .sweep now => some ⟨MemoryCache.sweep s.cache now, s.uses⟩

end Blamejs.MemoryCache
