/-
What the server takes from outside its own sources.

The `shared/` submodule (gzip and crc32 wrappers, the libavl tree, the byte
buffer) is not part of the repository. The wrappers whose results the storage
code stores or branches on are the fields of `Shared`; nothing about them is
assumed here, so every result holds for whatever they compute.
-/
import TransDB.ByteList

set_option autoImplicit false

namespace TransDB

/-- The functions of `shared/clib` the storage code calls, and the one
`sizeof` it adds up. -/
structure Shared where
  /-- `crc32_compute` over a buffer. -/
  crc32_compute : List UInt8 → UInt32
  /-- `CCommon_compressGzip_Buffer` at a level, into a buffer of `BLOCK_SIZE`
  bytes: the stream on `Z_OK`, `none` on any other status. -/
  compressGzip : Int → List UInt8 → Option (List UInt8)
  /-- `CCommon_isGziped`, given the memory from the pointer on. -/
  isGziped : List UInt8 → Bool
  /-- `CCommon_decompressGzip`: the bytes it appends on `Z_OK`, `none` on any
  other status (the callers drop what it appended then). -/
  decompressGzip : List UInt8 → Option (List UInt8)
  /-- What `bbuff_read` leaves in its destination when fewer bytes are left than
  it is asked for. -/
  shortRead : List UInt8 → ℕ → List UInt8
  /-- `sizeof(struct avl_node)` of libavl. -/
  sizeofAvlNode : ℕ

/-- One byte of the CRC-32 of gzip. -/
def crc32Byte (crc : UInt32) (b : UInt8) : UInt32 :=
  (List.range 8).foldl (fun c _ => if c &&& 1 = 1 then (c >>> 1) ^^^ 0xEDB88320 else c >>> 1)
    (crc ^^^ b.toUInt32)

/-- A concrete `Shared` to run the model with: the CRC-32 of gzip, the two magic
bytes of a gzip stream, and a compressor that always reports failure, which the
server takes as "store it raw". -/
def Shared.plain : Shared where
  crc32_compute bytes := ~~~ bytes.foldl crc32Byte 0xFFFFFFFF
  compressGzip _ _ := none
  isGziped mem := mem.take 2 = [0x1F, 0x8B]
  decompressGzip _ := none
  shortRead rest _ := rest
  sizeofAvlNode := 32

/-- The value an integer leaves in a `uint16` variable. -/
def u16 (n : Int) : ℕ := (n % 65536).toNat

end TransDB
