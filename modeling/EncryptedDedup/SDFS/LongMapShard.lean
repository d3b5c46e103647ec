import EncryptedDedup.SDFS.SlotFile

/-!
# Shards of `ShardedFileByteArrayLongMap2`

A slot has a key, its location and how often it is claimed.
-/

namespace EncryptedDedup.SDFS.LongMapShard
open SlotFile

structure State extends Slots where
  claims : Finset Nat
  /-- It stays 0: `this.currentSz = this.currentSz++`. -/
  currentSz : Int
  /-- `m.active`. -/
  active : Bool
  /-- `m.full`. -/
  full : Bool

variable (T : Layout 2)

def vp : Nat := T.hashLength

def zl : Nat := T.hashLength + 8

/-- `val` has to be the location that is stored. A count below zero becomes zero. -/
def claimKey (s : State) (key : Bytes) (val ct : Int) : State × Bool :=
  match locate T s.toSlots key with
  | none => (s, false)
  | some pos =>
    if longAt s.toSlots (pos + vp T) = val then
      let ct := (ct + longAt s.toSlots (pos + zl T)).bmod (2 ^ 64)
      let ct := if ct < 0 then 0 else ct
      let s := { s with kFC := overwrite s.kFC (pos + zl T) (toBE64 ct) }
      (if 0 < ct then { s with claims := insert (pos / T.el) s.claims } else s, true)
    else (s, false)

def get (s : State) (key : Bytes) (claim : Bool) : Int × State :=
  match locate T s.toSlots key with
  | none => (-1, s)
  | some pos =>
    let val := longAt s.toSlots (pos + vp T)
    if claim then
      let clr := longAt s.toSlots (pos + zl T)
      let clr := if clr < 0 then 0 else clr
      (val, { s with
        kFC := overwrite s.kFC (pos + zl T) (toBE64 (clr + 1))
        claims := insert (pos / T.el) s.claims })
    else (val, s)

/-- `!m.active || m.full || this.currentSz >= maxSz`. -/
def refuses (s : State) : Bool := !s.active || s.full || decide ((maxSz T : Int) ≤ s.currentSz)

def put (s : State) (key : Bytes) (value cl : Int) (mightContain : Bool) : State × Except TableError InsertRecord :=
  if refuses T s then (s, .error .hashtableFull)
  else
    match insertionIndex T s.toSlots key mightContain with
    | .error e => (s, .error e)
    | .ok pos =>
      let cl := if cl ≤ 0 then 1 else cl
      if pos < 0 then
        let npos := (-pos - 1).toNat
        let nv := longAt s.toSlots (npos + vp T)
        let ct := longAt s.toSlots (npos + zl T)
        let ct := if ct < 0 then 0 else ct
        ({ s with
            kFC := overwrite s.kFC (npos + zl T) (toBE64 (ct + cl))
            claims := insert (npos / T.el) s.claims
            removed := s.removed.erase (npos / T.el)
            mapped := insert (npos / T.el) s.mapped }, .ok ⟨false, nv⟩)
      else
        let pos := pos.toNat
        ({ s with
            kFC := overwrite s.kFC pos (key ++ (toBE64 value ++ toBE64 cl))
            claims := insert (pos / T.el) s.claims
            mapped := insert (pos / T.el) s.mapped
            removed := s.removed.erase (pos / T.el) }, .ok ⟨true, value⟩)

/-- The bits are set at the offset of the slot and not at its number. -/
def update (s : State) (key : Bytes) (value : Int) : State × Bool :=
  match locate T s.toSlots key with
  | none => (s, false)
  | some pos =>
    ({ s with
        kFC := overwrite s.kFC pos (key ++ toBE64 value)
        claims := insert pos s.claims
        mapped := insert pos s.mapped
        removed := s.removed.erase pos }, true)

/-- `deleteChunk` is what `setmDelete` returns for the key and its location. -/
def remove (s : State) (key : Bytes) (deleteChunk : Bytes → Int → Bool) : State × Bool :=
  match locate T s.toSlots key with
  | none => (s, false)
  | some pos =>
    if pos / T.el ∈ s.claims then (s, false)
    else
      let kFC := overwrite s.kFC pos T.removed
      let fp := ofBE64 (slice kFC (pos + vp T) 8)
      let kFC := overwrite kFC (pos + vp T) (toBE64 0)
      -- `getLong` has left the position at the count; two more words are put from there on.
      let kFC := overwrite kFC (pos + zl T) (toBE64 0)
      if kFC.length < pos + T.el + 8 then ({ s with kFC := kFC }, false)
      else
        let s := { s with kFC := overwrite kFC (pos + T.el) (toBE64 0) }
        if deleteChunk key fp then
          ({ s with
              claims := s.claims.erase (pos / T.el)
              mapped := s.mapped.erase (pos / T.el)
              removed := insert (pos / T.el) s.removed }, true)
        else (s, false)

def State.new : State := ⟨.new T, ∅, 0, false, false⟩

/-! ### Runs -/

inductive Op where
  /-- Both callers pass `true` for `mightContain`. -/
  | put (key : Bytes) (value cl : Int)
  | get (key : Bytes) (claim : Bool)
  | update (key : Bytes) (value : Int)
  | claimKey (key : Bytes) (val ct : Int)
  | remove (key : Bytes) (deleteChunk : Bytes → Int → Bool)
  /-- The table is closed and set up again, with no claims. -/
  | reopen
  | setActive (active : Bool)
  | setFull (full : Bool)

def step (s : State) : Op → State
  | .put key value cl => (put T s key value cl true).1
  | .get key claim => (get T s key claim).2
  | .update key value => (update T s key value).1
  | .claimKey key val ct => (claimKey T s key val ct).1
  | .remove key deleteChunk => (remove T s key deleteChunk).1
  | .reopen => { s with claims := ∅, currentSz := 0, active := false }
  | .setActive active => { s with active := active }
  | .setFull full => { s with full := full }

end EncryptedDedup.SDFS.LongMapShard
