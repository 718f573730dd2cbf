import Pmdk.Lib.Endian

/-!
# The messages of the remote protocol

The structures of the out-of-band connection between a client and `rpmemd`. All of them are packed,
so a structure in memory is the sequence of its members in the byte order of the host, and the next
one begins where it ends. `ntoh` and `hton` convert a structure in place and are the same function.
-/

namespace Pmdk.Rpmem

open Endian

def RPMEM_PROTO_MAJOR : BitVec 16 := 0
def RPMEM_PROTO_MINOR : BitVec 16 := 1

def RPMEM_MSG_TYPE_CREATE : BitVec 32 := 1
def RPMEM_MSG_TYPE_CREATE_RESP : BitVec 32 := 2
def RPMEM_MSG_TYPE_OPEN : BitVec 32 := 3
def RPMEM_MSG_TYPE_OPEN_RESP : BitVec 32 := 4
def RPMEM_MSG_TYPE_CLOSE : BitVec 32 := 5
def RPMEM_MSG_TYPE_CLOSE_RESP : BitVec 32 := 6
def RPMEM_MSG_TYPE_SET_ATTR : BitVec 32 := 7
def RPMEM_MSG_TYPE_SET_ATTR_RESP : BitVec 32 := 8

def MAX_RPMEM_PROV : BitVec 32 := 3
def MAX_RPMEM_ERR : BitVec 32 := 14
def RPMEM_PM_GPSPM : BitVec 32 := 1
def RPMEM_PM_APM : BitVec 32 := 2

/-! ## Headers -/

structure MsgHdr where
  type : BitVec 32
  size : BitVec 64
  deriving DecidableEq

namespace MsgHdr

def bytes (h : Order) (m : MsgHdr) : List UInt8 := store h 4 m.type ++ store h 8 m.size

def read (h : Order) : Read MsgHdr := do
  return { type := ← .word h 4, size := ← .word h 8 }

def ntoh (h : Order) (m : MsgHdr) : MsgHdr where
  type := toh h 4 m.type
  size := toh h 8 m.size

@[simp] theorem read_bytes (h h' : Order) (m : MsgHdr) (bs : List UInt8) :
    read h' ((m.ntoh h).bytes h ++ bs) = (m.ntoh h', bs) := by
  simp [read, bytes, ntoh]

@[simp] theorem read_snd (h : Order) (bs : List UInt8) : (read h bs).2 = bs.drop 12 := by
  simp [read, Read.word]

@[simp] theorem ntoh_ntoh (h : Order) (m : MsgHdr) : (m.ntoh h).ntoh h = m := by
  simp [ntoh]

@[simp] theorem length_bytes (h : Order) (m : MsgHdr) : (m.bytes h).length = 12 := by
  simp [bytes]

end MsgHdr

structure MsgHdrResp where
  status : BitVec 32
  type : BitVec 32
  size : BitVec 64
  deriving DecidableEq

namespace MsgHdrResp

def bytes (h : Order) (m : MsgHdrResp) : List UInt8 :=
  store h 4 m.status ++ (store h 4 m.type ++ store h 8 m.size)

def read (h : Order) : Read MsgHdrResp := do
  return { status := ← .word h 4, type := ← .word h 4, size := ← .word h 8 }

def ntoh (h : Order) (m : MsgHdrResp) : MsgHdrResp where
  status := toh h 4 m.status
  type := toh h 4 m.type
  size := toh h 8 m.size

@[simp] theorem read_bytes (h h' : Order) (m : MsgHdrResp) (bs : List UInt8) :
    read h' ((m.ntoh h).bytes h ++ bs) = (m.ntoh h', bs) := by
  simp [read, bytes, ntoh]

@[simp] theorem ntoh_ntoh (h : Order) (m : MsgHdrResp) : (m.ntoh h).ntoh h = m := by
  simp [ntoh]

@[simp] theorem length_bytes (h : Order) (m : MsgHdrResp) : (m.bytes h).length = 16 := by
  simp [bytes]

end MsgHdrResp

/-! ## Attributes -/

/-- `rpmem_pool_attr`, by default zeroed. -/
structure PoolAttr where
  signature : Vector UInt8 8 := .replicate 8 0
  major : BitVec 32 := 0
  compat_features : BitVec 32 := 0
  incompat_features : BitVec 32 := 0
  ro_compat_features : BitVec 32 := 0
  poolset_uuid : Vector UInt8 16 := .replicate 16 0
  uuid : Vector UInt8 16 := .replicate 16 0
  next_uuid : Vector UInt8 16 := .replicate 16 0
  prev_uuid : Vector UInt8 16 := .replicate 16 0
  user_flags : Vector UInt8 16 := .replicate 16 0
  deriving DecidableEq

def PoolAttr.bytes (h : Order) (a : PoolAttr) : List UInt8 :=
  a.signature.toList ++ (store h 4 a.major ++ (store h 4 a.compat_features ++
    (store h 4 a.incompat_features ++ (store h 4 a.ro_compat_features ++
      (a.poolset_uuid.toList ++ (a.uuid.toList ++ (a.next_uuid.toList ++
        (a.prev_uuid.toList ++ a.user_flags.toList))))))))

structure PoolAttrPacked where
  signature : Vector UInt8 8
  major : BitVec 32
  compat_features : BitVec 32
  incompat_features : BitVec 32
  ro_compat_features : BitVec 32
  poolset_uuid : Vector UInt8 16
  uuid : Vector UInt8 16
  next_uuid : Vector UInt8 16
  prev_uuid : Vector UInt8 16
  user_flags : Vector UInt8 16
  deriving DecidableEq

def PoolAttr.pack (src : PoolAttr) : PoolAttrPacked where
  signature := src.signature
  major := src.major
  compat_features := src.compat_features
  incompat_features := src.incompat_features
  ro_compat_features := src.ro_compat_features
  poolset_uuid := src.poolset_uuid
  uuid := src.uuid
  next_uuid := src.next_uuid
  prev_uuid := src.prev_uuid
  user_flags := src.user_flags

namespace PoolAttrPacked

def unpack (src : PoolAttrPacked) : PoolAttr where
  signature := src.signature
  major := src.major
  compat_features := src.compat_features
  incompat_features := src.incompat_features
  ro_compat_features := src.ro_compat_features
  poolset_uuid := src.poolset_uuid
  uuid := src.uuid
  next_uuid := src.next_uuid
  prev_uuid := src.prev_uuid
  user_flags := src.user_flags

def bytes (h : Order) (a : PoolAttrPacked) : List UInt8 :=
  a.signature.toList ++ (store h 4 a.major ++ (store h 4 a.compat_features ++
    (store h 4 a.incompat_features ++ (store h 4 a.ro_compat_features ++
      (a.poolset_uuid.toList ++ (a.uuid.toList ++ (a.next_uuid.toList ++
        (a.prev_uuid.toList ++ a.user_flags.toList))))))))

def read (h : Order) : Read PoolAttrPacked := do
  return {
    signature := ← .bytes 8, major := ← .word h 4, compat_features := ← .word h 4
    incompat_features := ← .word h 4, ro_compat_features := ← .word h 4
    poolset_uuid := ← .bytes 16, uuid := ← .bytes 16, next_uuid := ← .bytes 16
    prev_uuid := ← .bytes 16, user_flags := ← .bytes 16 }

def ntoh (h : Order) (attr : PoolAttrPacked) : PoolAttrPacked :=
  { attr with
    major := toh h 4 attr.major
    ro_compat_features := toh h 4 attr.ro_compat_features
    incompat_features := toh h 4 attr.incompat_features
    compat_features := toh h 4 attr.compat_features }

@[simp] theorem read_bytes (h h' : Order) (a : PoolAttrPacked) (bs : List UInt8) :
    read h' ((a.ntoh h).bytes h ++ bs) = (a.ntoh h', bs) := by
  simp [read, bytes, ntoh]

@[simp] theorem read_bytes_pack (h : Order) (a : PoolAttr) : (read h (a.bytes h)).1 = a.pack := by
  have hbytes : a.bytes h = a.pack.bytes h ++ [] := (List.append_nil _).symm
  rw [hbytes]
  simp [read, bytes, load_self, -List.append_nil]

@[simp] theorem read_snd (h : Order) (bs : List UInt8) : (read h bs).2 = bs.drop 104 := by
  simp [read, Read.word, Read.bytes]

@[simp] theorem ntoh_ntoh (h : Order) (a : PoolAttrPacked) : (a.ntoh h).ntoh h = a := by
  simp [ntoh]

@[simp] theorem length_bytes (h : Order) (a : PoolAttrPacked) : (a.bytes h).length = 104 := by
  simp [bytes]

end PoolAttrPacked

@[simp] theorem PoolAttr.unpack_pack (a : PoolAttr) : a.pack.unpack = a := rfl

structure MsgIbcAttr where
  port : BitVec 32
  persist_method : BitVec 32
  rkey : BitVec 64
  raddr : BitVec 64
  nlanes : BitVec 32
  deriving DecidableEq

namespace MsgIbcAttr

def bytes (h : Order) (m : MsgIbcAttr) : List UInt8 :=
  store h 4 m.port ++ (store h 4 m.persist_method ++ (store h 8 m.rkey ++ (store h 8 m.raddr ++
    store h 4 m.nlanes)))

def read (h : Order) : Read MsgIbcAttr := do
  return {
    port := ← .word h 4, persist_method := ← .word h 4, rkey := ← .word h 8
    raddr := ← .word h 8, nlanes := ← .word h 4 }

def ntoh (h : Order) (ibc : MsgIbcAttr) : MsgIbcAttr :=
  { ibc with
    port := toh h 4 ibc.port
    persist_method := toh h 4 ibc.persist_method
    rkey := toh h 8 ibc.rkey
    raddr := toh h 8 ibc.raddr }

@[simp] theorem read_bytes (h h' : Order) (m : MsgIbcAttr) (bs : List UInt8) :
    read h' ((m.ntoh h).bytes h ++ bs) =
      (({ m with nlanes := load h' 4 (store h 4 m.nlanes) } : MsgIbcAttr).ntoh h', bs) := by
  simp [read, bytes, ntoh]

@[simp] theorem ntoh_ntoh (h : Order) (m : MsgIbcAttr) : (m.ntoh h).ntoh h = m := by
  simp [ntoh]

@[simp] theorem length_bytes (h : Order) (m : MsgIbcAttr) : (m.bytes h).length = 28 := by
  simp [bytes]

end MsgIbcAttr

/-! ## Requests -/

structure MsgCommon where
  major : BitVec 16
  minor : BitVec 16
  pool_size : BitVec 64
  nlanes : BitVec 32
  provider : BitVec 32
  buff_size : BitVec 64
  deriving DecidableEq

namespace MsgCommon

def bytes (h : Order) (m : MsgCommon) : List UInt8 :=
  store h 2 m.major ++ (store h 2 m.minor ++ (store h 8 m.pool_size ++ (store h 4 m.nlanes ++
    (store h 4 m.provider ++ store h 8 m.buff_size))))

def read (h : Order) : Read MsgCommon := do
  return {
    major := ← .word h 2, minor := ← .word h 2, pool_size := ← .word h 8
    nlanes := ← .word h 4, provider := ← .word h 4, buff_size := ← .word h 8 }

def ntoh (h : Order) (m : MsgCommon) : MsgCommon where
  major := toh h 2 m.major
  minor := toh h 2 m.minor
  pool_size := toh h 8 m.pool_size
  nlanes := toh h 4 m.nlanes
  provider := toh h 4 m.provider
  buff_size := toh h 8 m.buff_size

@[simp] theorem read_bytes (h h' : Order) (m : MsgCommon) (bs : List UInt8) :
    read h' ((m.ntoh h).bytes h ++ bs) = (m.ntoh h', bs) := by
  simp [read, bytes, ntoh]

@[simp] theorem read_snd (h : Order) (bs : List UInt8) : (read h bs).2 = bs.drop 28 := by
  simp [read, Read.word]

@[simp] theorem ntoh_ntoh (h : Order) (m : MsgCommon) : (m.ntoh h).ntoh h = m := by
  simp [ntoh]

@[simp] theorem length_bytes (h : Order) (m : MsgCommon) : (m.bytes h).length = 28 := by
  simp [bytes]

end MsgCommon

end Pmdk.Rpmem
