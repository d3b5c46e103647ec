import EncryptedDedup.Trace

/-!
# `encryptFSL`

Writes the trace of the encrypted chunks: the fingerprint of a chunk becomes the first six bytes of
its MD5 digest, the size stays.
-/

namespace EncryptedDedup.EncryptFSL

def title : Bytes := chars "Chunk Hash   Chunk Size (bytes) \tCompression Ratio (tenth)".toList

/-- `%02x:%02x:%02x:%02x:%02x:%02x\t%d\t10`; the size is printed as an `int`. -/
def formatChunk (mKey : Fp) (size : Nat) : Bytes :=
  fields ((mKey.bytes.map formatByte).zip (chars [':', ':', ':', ':', ':', '\t']))
    (formatInt (Int.bmod size (2 ^ 32)) ++ chars ['\t', '1', '0'])

/-- The output line of a chunk; none if the line has no size and `atoi` is called with a null pointer. -/
def encryptLine (md5 : Fp → Fp) (line : Bytes) : Option Bytes :=
  let (hash, item) := readChunk line
  item.map fun item => formatChunk (md5 hash) (toU64 (atoi item))

/-- The file that a run of the program writes; `md5` gives the first six bytes of the MD5 digest. -/
def outPutChunks (md5 : Fp → Fp) (fp : Bytes) : Option Bytes := do
  let lines ← ((bufferLines 256 fp).drop 1).mapM (encryptLine md5)
  some ((title :: lines).map (· ++ [10])).flatten

end EncryptedDedup.EncryptFSL
