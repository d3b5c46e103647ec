import EncryptedDedup.Lib.Bytes
import EncryptedDedup.Lib.OrderedMap
import EncryptedDedup.SDFS.HashLocPair

/-!
# `RocksDBMap`

The reference counts of the stored chunks. A key is in the tables of RocksDB, or in a temporary table
until the archive with its chunk is synced; a key without references waits in a third table for the
collector. Every method holds the lock of its key, so each is one step.
-/

namespace EncryptedDedup.SDFS

/-- The location of a chunk and its references, a value of 16 bytes. -/
structure CountRecord where
  pos : Int
  ct : Int
  deriving DecidableEq

/-- The location of a chunk without references, and when it may be removed. -/
structure RemovalRecord where
  pos : Int
  tm : Int
  deriving DecidableEq

/-- What `put` uses of a `ChunkData`. -/
structure ChunkData where
  hash : Bytes
  references : Int

structure RocksDBMap where
  closed : Bool
  dbs : OrderedMap Bytes CountRecord
  tempHt : OrderedMap Bytes CountRecord
  rmdb : OrderedMap Bytes RemovalRecord
  /-- What a run of `claimRecords` has still to visit: its iterator shows `rmdb` as it was at the start. -/
  iter : Option (List (Bytes × RemovalRecord))
  /-- `System.currentTimeMillis()`. -/
  now : Int
  /-- The chunks given to `setmDelete(true)`, with their locations. -/
  mDeleted : List (Bytes × Int)

namespace RocksDBMap

def rmthreashold : Int := 15 * 60 * 1000

inductive Failure where
  /-- `"Hashtable " + this.fileName + " is close"`. -/
  | closed
  /-- `cm.persistData(true)` threw. -/
  | persist
  /-- `"Persistent Hashtable already has an entry that exists in the temp hashtable"`. -/
  | committed
  /-- A collector runs already, or none does. -/
  | collector
  deriving DecidableEq

/-- What `references` of a chunk mean to `put`. -/
def claims (references : Int) : Int := if references ≤ 0 then 1 else references

/-- `put(cm, persist)`. `stored` is where the chunk is after `persistData`, which finds a chunk that an
archive has already. -/
def put (m : RocksDBMap) (cm : ChunkData) (stored : Option Int) : Except Failure ((Bool × Int) × RocksDBMap) :=
  if m.closed then .error .closed
  else match m.tempHt.get cm.hash with
    | some bk => .ok ((false, bk.pos),
        { m with tempHt := m.tempHt.put cm.hash { bk with ct := long (bk.ct + claims cm.references) } })
    | none => match m.dbs.get cm.hash with
      | none => match stored with
        | none => .error .persist
        | some cPos => .ok ((true, cPos), { m with tempHt := m.tempHt.put cm.hash ⟨cPos, claims cm.references⟩ })
      | some v =>
        let ct := if v.ct ≤ 0 then 0 else v.ct
        .ok ((false, v.pos), { m with
          rmdb := if v.ct ≤ 0 then m.rmdb.delete cm.hash else m.rmdb
          dbs := m.dbs.put cm.hash { v with ct := long (ct + claims cm.references) } })

/-- `claimKey(hash, val, ct)`. -/
def claimKey (m : RocksDBMap) (hash : Bytes) (val ct : Int) : Bool × RocksDBMap :=
  match m.tempHt.get hash with
  | some bk =>
    if bk.pos ≠ val then (false, m)
    else
      let ct := long (ct + bk.ct)
      (true, { m with
        rmdb := if ct ≤ 0 then m.rmdb.put hash ⟨bk.pos, long (m.now + rmthreashold)⟩ else m.rmdb.delete hash
        tempHt := m.tempHt.put hash { bk with ct } })
  | none => match m.dbs.get hash with
    | some v =>
      if v.pos ≠ val then (false, m)
      else
        let oct := ct
        let ct := long (ct + v.ct)
        (true, { m with
          rmdb := if ct ≤ 0 ∧ oct < 0 then m.rmdb.put hash ⟨v.pos, long (m.now + rmthreashold)⟩ else m.rmdb.delete hash
          dbs := m.dbs.put hash { v with ct } })
    | none => (false, m)

/-- What `hashBlobArchiveSync` does to one of the keys of an archive. -/
def hashBlobArchiveSync (m : RocksDBMap) (b : Bytes) : Except Failure RocksDBMap :=
  match m.tempHt.get b with
  | none => .ok m
  | some bf => match m.dbs.get b with
    | some _ => .error .committed
    | none => .ok { m with dbs := m.dbs.put b bf, tempHt := m.tempHt.delete b }

/-! ### `claimRecords` -/

/-- The collector, which is `synchronized`, opens its iterator. -/
def startClaimRecords (m : RocksDBMap) : Except Failure RocksDBMap :=
  if m.closed then .error .closed
  else match m.iter with
    | some _ => .error .collector
    | none => .ok { m with iter := some m.rmdb.entries }

/-- `ck.setmDelete(true)` for the chunk at `pos`. -/
def setmDelete (m : RocksDBMap) (hash : Bytes) (pos : Int) : RocksDBMap :=
  { m with mDeleted := m.mDeleted ++ [(hash, pos)] }

/-- What the collector does to a key, with the value that its iterator shows. -/
def claimRecord (m : RocksDBMap) (hash : Bytes) (bk : RemovalRecord) : RocksDBMap :=
  match m.rmdb.get hash with
  | none => m
  | some _ =>
    if m.now > bk.tm then
      match m.dbs.get hash with
      | some v =>
        if v.ct ≤ 0 ∧ v.pos = bk.pos then
          { m.setmDelete hash bk.pos with dbs := m.dbs.delete hash, rmdb := m.rmdb.delete hash }
        else { m with rmdb := m.rmdb.delete hash }
      | none => { m.setmDelete hash bk.pos with rmdb := m.rmdb.delete hash }
    else m

/-- One turn of the loop, or its end. -/
def claimNext (m : RocksDBMap) : Except Failure RocksDBMap :=
  match m.iter with
  | none => .error .collector
  | some [] => .ok { m with iter := none }
  | some ((hash, bk) :: rest) => .ok { m.claimRecord hash bk with iter := some rest }

/-! ### Steps -/

inductive Step where
  | put (cm : ChunkData) (stored : Option Int)
  | claimKey (hash : Bytes) (val ct : Int)
  | hashBlobArchiveSync (b : Bytes)
  | startClaimRecords
  | claimNext
  /-- The clock goes on. -/
  | tick (millis : Nat)

/-- The state afterwards; a call that throws changes nothing. -/
def step (m : RocksDBMap) : Step → Except Failure RocksDBMap
  | .put cm stored => (m.put cm stored).map Prod.snd
  | .claimKey hash val ct => .ok (m.claimKey hash val ct).2
  | .hashBlobArchiveSync b => m.hashBlobArchiveSync b
  | .startClaimRecords => m.startClaimRecords
  | .claimNext => m.claimNext
  | .tick millis => .ok { m with now := m.now + millis }

end RocksDBMap

end EncryptedDedup.SDFS
