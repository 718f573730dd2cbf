import Pmdk.Rpmem.Obc

/-!
# What the client and the daemon understand

The requests that the client makes, the responses of the daemon, and what the client takes from
them. Between hosts of one byte order everything arrives as it was given.
-/

namespace Pmdk.Rpmem

open Endian List

/-! ## Requests of the client -/

def rpmemObcCheckReq (req : ReqAttr) : Bool := req.provider < MAX_RPMEM_PROV

def msgCommon (req : ReqAttr) : MsgCommon where
  major := RPMEM_PROTO_MAJOR
  minor := RPMEM_PROTO_MINOR
  pool_size := req.pool_size
  nlanes := req.nlanes
  provider := req.provider
  buff_size := req.buff_size

/-- `rpmem_obc_alloc_create_msg`, and the descriptor that it copies behind the structure. -/
def rpmemObcAllocCreateMsg (req : ReqAttr) (pool_attr : Option PoolAttr) : MsgCreate where
  hdr :=
    { type := RPMEM_MSG_TYPE_CREATE
      size := BitVec.ofNat 64 (148 + (req.pool_desc.length + 1)) }
  c := msgCommon req
  pool_attr := (pool_attr.getD {}).pack
  size := BitVec.ofNat 32 (req.pool_desc.length + 1)

def rpmemObcCreate (h : Order) (req : ReqAttr) (pool_attr : Option PoolAttr) : List UInt8 :=
  ((rpmemObcAllocCreateMsg req pool_attr).ntoh h).bytes h ++ (req.pool_desc ++ [0])

def rpmemObcAllocOpenMsg (req : ReqAttr) : MsgOpen where
  hdr :=
    { type := RPMEM_MSG_TYPE_OPEN
      size := BitVec.ofNat 64 (44 + (req.pool_desc.length + 1)) }
  c := msgCommon req
  size := BitVec.ofNat 32 (req.pool_desc.length + 1)

def rpmemObcOpen (h : Order) (req : ReqAttr) : List UInt8 :=
  ((rpmemObcAllocOpenMsg req).ntoh h).bytes h ++ (req.pool_desc ++ [0])

def rpmemObcSetAttr (h : Order) (pool_attr : Option PoolAttr) : List UInt8 :=
  let msg : MsgSetAttr :=
    { hdr := { type := RPMEM_MSG_TYPE_SET_ATTR, size := 116 }
      pool_attr := (PoolAttrPacked.read h ((pool_attr.getD {}).bytes h)).1 }
  (msg.ntoh h).bytes h

def rpmemObcClose (h : Order) (flags : BitVec 32) : List UInt8 :=
  let msg : MsgClose :=
    { hdr := { type := RPMEM_MSG_TYPE_CLOSE, size := 16 }, flags := flags }
  (msg.ntoh h).bytes h

/-! ## Responses of the daemon -/

/-- The structures of the responses begin with this header; only the second and the third part of
an open response are not in all of them. -/
def respHdr (type : BitVec 32) (size : Nat) (status : BitVec 32) : MsgHdrResp where
  status := status
  type := type
  size := BitVec.ofNat 64 size

def ibcAttr (res : RespAttr) : MsgIbcAttr where
  port := res.port.setWidth 32
  persist_method := res.persist_method
  rkey := res.rkey
  raddr := res.raddr
  nlanes := res.nlanes

def rpmemdObcCreateResp (h : Order) (status : BitVec 32) (res : RespAttr) : List UInt8 :=
  ((respHdr RPMEM_MSG_TYPE_CREATE_RESP 44 status).ntoh h).bytes h ++ ((ibcAttr res).ntoh h).bytes h

def rpmemdObcOpenResp (h : Order) (status : BitVec 32) (res : RespAttr) (pool_attr : PoolAttr) :
    List UInt8 :=
  ((respHdr RPMEM_MSG_TYPE_OPEN_RESP 148 status).ntoh h).bytes h ++
    (((ibcAttr res).ntoh h).bytes h ++ (pool_attr.pack.ntoh h).bytes h)

def rpmemdObcCloseResp (h : Order) (status : BitVec 32) : List UInt8 :=
  ((respHdr RPMEM_MSG_TYPE_CLOSE_RESP 16 status).ntoh h).bytes h

def rpmemdObcSetAttrResp (h : Order) (status : BitVec 32) : List UInt8 :=
  ((respHdr RPMEM_MSG_TYPE_SET_ATTR_RESP 16 status).ntoh h).bytes h

/-! ## What the client takes from them -/

def rpmemObcCheckHdrResp (resp : MsgHdrResp) (type : BitVec 32) (size : BitVec 64) : Bool :=
  resp.type = type ∧ resp.size = size ∧ resp.status < MAX_RPMEM_ERR ∧ resp.status = 0

def rpmemObcCheckIbcAttr (ibc : MsgIbcAttr) : Bool :=
  ibc.port ≠ 0 ∧ ibc.port ≤ 0xffff ∧
    (ibc.persist_method = RPMEM_PM_GPSPM ∨ ibc.persist_method = RPMEM_PM_APM)

def rpmemObcGetRes (ibc : MsgIbcAttr) : RespAttr where
  port := ibc.port.setWidth 16
  rkey := ibc.rkey
  raddr := ibc.raddr
  nlanes := ibc.nlanes
  persist_method := ibc.persist_method

/-- A response of `size` bytes is received, and its header is checked. -/
def recvResp (h : Order) (type : BitVec 32) (size : Nat) (input : List UInt8) :
    Option (List UInt8) := do
  guard (size ≤ input.length)
  let (hdr, rest) := MsgHdrResp.read h input
  guard (rpmemObcCheckHdrResp (hdr.ntoh h) type (BitVec.ofNat 64 size))
  return rest

def recvCreateResp (h : Order) (input : List UInt8) : Option RespAttr := do
  let rest ← recvResp h RPMEM_MSG_TYPE_CREATE_RESP 44 input
  let ibc := (MsgIbcAttr.read h rest).1.ntoh h
  guard (rpmemObcCheckIbcAttr ibc)
  return rpmemObcGetRes ibc

def recvOpenResp (h : Order) (input : List UInt8) : Option (RespAttr × PoolAttr) := do
  let rest ← recvResp h RPMEM_MSG_TYPE_OPEN_RESP 148 input
  let (ibc, rest) := MsgIbcAttr.read h rest
  guard (rpmemObcCheckIbcAttr (ibc.ntoh h))
  return (rpmemObcGetRes (ibc.ntoh h), ((PoolAttrPacked.read h rest).1.ntoh h).unpack)

def recvCloseResp (h : Order) (input : List UInt8) : Bool :=
  (recvResp h RPMEM_MSG_TYPE_CLOSE_RESP 16 input).isSome

def recvSetAttrResp (h : Order) (input : List UInt8) : Bool :=
  (recvResp h RPMEM_MSG_TYPE_SET_ATTR_RESP 16 input).isSome

/-! ## Round trips -/

structure Exchange where
  req : ReqAttr
  pool_attr : Option PoolAttr
  flags : BitVec 32
  res : RespAttr
  resp_attr : PoolAttr
  desc_pos : 0 < req.pool_desc.length
  desc_lt : req.pool_desc.length + 1 < 2 ^ 32
  desc_nul : 0 ∉ req.pool_desc
  provider : req.provider ≠ 0 ∧ req.provider < MAX_RPMEM_PROV
  port : res.port ≠ 0
  method : res.persist_method = RPMEM_PM_GPSPM ∨ res.persist_method = RPMEM_PM_APM

def carried (c s : Order) (v : BitVec 32) : BitVec 32 := if c = s then v else swap 4 v

/-- The requests of a client `c` reach the callbacks of a daemon `s` as they were given, and so do
the responses of `s` reach `c`, where they fail if the status is not zero. -/
structure Agree (c s : Order) (x : Exchange) : Prop where
  sent : rpmemObcCheckReq x.req
  create : rpmemdObcProcess s (fun _ => true) (rpmemObcCreate c x.req x.pool_attr) =
    .ok (.create x.req (x.pool_attr.filter (· ≠ {})))
  «open» : rpmemdObcProcess s (fun _ => true) (rpmemObcOpen c x.req) = .ok (.open x.req)
  setAttr : rpmemdObcProcess s (fun _ => true) (rpmemObcSetAttr c x.pool_attr) =
    .ok (.set_attr (x.pool_attr.filter (· ≠ {})))
  close : rpmemdObcProcess s (fun _ => true) (rpmemObcClose c x.flags) = .ok (.close x.flags)
  createResp : recvCreateResp c (rpmemdObcCreateResp s 0 x.res) = some x.res
  openResp : recvOpenResp c (rpmemdObcOpenResp s 0 x.res x.resp_attr) = some (x.res, x.resp_attr)
  closeResp : recvCloseResp c (rpmemdObcCloseResp s 0)
  setAttrResp : recvSetAttrResp c (rpmemdObcSetAttrResp s 0)
  failed : ∀ status ≠ 0, status < MAX_RPMEM_ERR →
    recvCreateResp c (rpmemdObcCreateResp s status x.res) = none ∧
      recvOpenResp c (rpmemdObcOpenResp s status x.res x.resp_attr) = none ∧
      recvCloseResp c (rpmemdObcCloseResp s status) = false ∧
      recvSetAttrResp c (rpmemdObcSetAttrResp s status) = false

/-! ### Requests -/

theorem recvHdr_bytes (c s : Order) (hdr : MsgHdr) (body : List UInt8) :
    recvHdr s ((hdr.ntoh c).bytes c ++ body) = hdr := by
  simp [recvHdr]

variable {s : Order}

theorem process_eq {hdr : MsgHdr} {input : List UInt8} (hrecv : recvHdr s input = hdr)
    (hcheck : rpmemdObcCheckMsgHdr hdr = .ok ()) (hsize : input.length = hdr.size.toNat) :
    rpmemdObcProcess s (fun _ => true) input = rpmemdObcProcessCb s hdr.type input := by
  have hle := size_of_checkMsgHdr hcheck
  rw [rpmemdObcProcess, rpmemdObcMsgRecv, hrecv, if_neg (by omega), hcheck,
    take_of_length_le hsize.le]
  simp [check, hsize, bind, Except.bind, pure, Except.pure]

theorem takeWhile_desc {desc : List UInt8} (hnul : 0 ∉ desc) :
    (desc ++ [0]).takeWhile (· ≠ 0) = desc := by
  rw [takeWhile_append_of_pos]
  · simp
  · intro b hb
    simpa using ne_of_mem_of_not_mem hb hnul

theorem checkPoolDesc_ok {hdr : MsgHdr} {n : Nat} {size : BitVec 32} {desc : List UInt8}
    (hsize : size.toNat = desc.length + 1) (hhdr : hdr.size.toNat = n + (desc.length + 1))
    (hpos : 0 < desc.length) (hnul : 0 ∉ desc) :
    rpmemdObcCheckPoolDesc hdr n size (desc ++ [0]) = .ok () := by
  have hlast : (desc ++ [0])[desc.length]? = some 0 := by simp
  have hlen := congrArg List.length (takeWhile_desc hnul)
  rw [rpmemdObcCheckPoolDesc, strlen, if_pos (by simp), hlen, hsize, hhdr, Nat.add_sub_cancel,
    hlast]
  simp [check, bind, Except.bind, Nat.one_le_iff_ne_zero, hpos.ne']

theorem unpackAttr_pack (pool_attr : Option PoolAttr) :
    unpackAttr (pool_attr.getD {}).pack = pool_attr.filter (· ≠ {}) := by
  cases pool_attr with
  | none => exact if_pos rfl
  | some a =>
    rw [Option.getD_some, unpackAttr, PoolAttr.unpack_pack, Option.filter_some]
    by_cases ha : a = {}
    · rw [if_pos ha, if_neg (by simp [ha])]
    · rw [if_neg ha, if_pos (by simpa using ha)]

theorem reqAttr_msgCommon {req : ReqAttr} (hnul : 0 ∉ req.pool_desc) :
    reqAttr (msgCommon req) (req.pool_desc ++ [0]) = req := by
  rw [reqAttr, takeWhile_desc hnul]
  rfl

theorem MsgCreate.read_bytes (c s : Order) (m : MsgCreate) (bs : List UInt8) :
    MsgCreate.read s ((m.ntoh c).bytes c ++ bs) = (m.ntoh s, bs) := by
  simp [MsgCreate.read, MsgCreate.bytes, MsgCreate.ntoh]

theorem MsgOpen.read_bytes (c s : Order) (m : MsgOpen) (bs : List UInt8) :
    MsgOpen.read s ((m.ntoh c).bytes c ++ bs) = (m.ntoh s, bs) := by
  simp [MsgOpen.read, MsgOpen.bytes, MsgOpen.ntoh]

variable {x : Exchange}

theorem checks_ok {α : Type} {hdr : MsgHdr} {n : Nat} {size : BitVec 32} {r : α}
    (hsize : size.toNat = x.req.pool_desc.length + 1)
    (hhdr : hdr.size.toNat = n + (x.req.pool_desc.length + 1)) :
    (do
      rpmemdObcCheckProtoVer (msgCommon x.req).major (msgCommon x.req).minor
      rpmemdObcCheckPoolDesc hdr n size (x.req.pool_desc ++ [0])
      rpmemdObcCheckProvider (msgCommon x.req).provider
      return r : Except Stop α) = .ok r := by
  have hver : rpmemdObcCheckProtoVer (msgCommon x.req).major (msgCommon x.req).minor = .ok () := rfl
  have hprovider : rpmemdObcCheckProvider (msgCommon x.req).provider = .ok () := by
    rw [rpmemdObcCheckProvider, check]
    exact if_pos (decide_eq_true x.provider)
  rw [hver, checkPoolDesc_ok hsize hhdr x.desc_pos x.desc_nul, hprovider]
  rfl

theorem MsgSetAttr.read_bytes (c s : Order) (m : MsgSetAttr) :
    (MsgSetAttr.read s ((m.ntoh c).bytes c)).1 = m.ntoh s := by
  rw [← append_nil (MsgSetAttr.bytes c _)]
  simp [MsgSetAttr.read, MsgSetAttr.bytes, MsgSetAttr.ntoh, -append_nil]

theorem MsgClose.read_bytes (c s : Order) (m : MsgClose) :
    (MsgClose.read s ((m.ntoh c).bytes c)).1 =
      { hdr := m.hdr.ntoh s, flags := carried c s m.flags } := by
  rw [← append_nil (MsgClose.bytes c _)]
  simp [MsgClose.read, MsgClose.bytes, MsgClose.ntoh, carried, load_store, -append_nil]

theorem process_create (c s : Order) (x : Exchange) :
    rpmemdObcProcess s (fun _ => true) (rpmemObcCreate c x.req x.pool_attr) =
      .ok (.create x.req (x.pool_attr.filter (· ≠ {}))) := by
  have hlt := x.desc_lt
  generalize hmsg : rpmemObcAllocCreateMsg x.req x.pool_attr = msg
  have hsize : msg.size.toNat = x.req.pool_desc.length + 1 := by
    simp [← hmsg, rpmemObcAllocCreateMsg]
    omega
  have hhdr : msg.hdr.size.toNat = 148 + (x.req.pool_desc.length + 1) := by
    simp [← hmsg, rpmemObcAllocCreateMsg]
    omega
  have hcheck : rpmemdObcCheckMsgHdr msg.hdr = .ok () := by
    rw [rpmemdObcCheckMsgHdr, hhdr]
    simp [check, ← hmsg, rpmemObcAllocCreateMsg, bind, Except.bind]
    omega
  have hlen : (rpmemObcCreate c x.req x.pool_attr).length = msg.hdr.size.toNat := by
    simp [rpmemObcCreate, MsgCreate.bytes, hhdr]
    omega
  have hrecv : recvHdr s (rpmemObcCreate c x.req x.pool_attr) = msg.hdr := by
    rw [rpmemObcCreate, hmsg, MsgCreate.bytes, append_assoc]
    exact recvHdr_bytes ..
  have htype : msg.hdr.type = RPMEM_MSG_TYPE_CREATE := by rw [← hmsg]; rfl
  rw [process_eq hrecv hcheck hlen, rpmemdObcProcessCb, if_pos htype, rpmemdObcNtohCheckMsgCreate,
    cast, if_pos (by omega), rpmemObcCreate, hmsg, MsgCreate.read_bytes]
  have hntoh : (msg.ntoh s).ntoh s = msg := by simp [MsgCreate.ntoh]
  have hc : msg.c = msgCommon x.req := by rw [← hmsg]; rfl
  have hattr : msg.pool_attr = (x.pool_attr.getD {}).pack := by rw [← hmsg]; rfl
  simp only [bind, Except.bind, hntoh, hc]
  have hchecks := checks_ok (r := (msg, x.req.pool_desc ++ [0])) hsize hhdr
  simp only [bind, Except.bind] at hchecks
  rw [hchecks]
  simp only [Functor.map, Except.map, rpmemdObcProcessCreate, hc, hattr, unpackAttr_pack,
    reqAttr_msgCommon x.desc_nul]

theorem process_open (c s : Order) (x : Exchange) :
    rpmemdObcProcess s (fun _ => true) (rpmemObcOpen c x.req) = .ok (.open x.req) := by
  have hlt := x.desc_lt
  generalize hmsg : rpmemObcAllocOpenMsg x.req = msg
  have hsize : msg.size.toNat = x.req.pool_desc.length + 1 := by
    simp [← hmsg, rpmemObcAllocOpenMsg]
    omega
  have hhdr : msg.hdr.size.toNat = 44 + (x.req.pool_desc.length + 1) := by
    simp [← hmsg, rpmemObcAllocOpenMsg]
    omega
  have hcheck : rpmemdObcCheckMsgHdr msg.hdr = .ok () := by
    rw [rpmemdObcCheckMsgHdr, hhdr]
    simp [check, ← hmsg, rpmemObcAllocOpenMsg, bind, Except.bind]
    omega
  have hlen : (rpmemObcOpen c x.req).length = msg.hdr.size.toNat := by
    simp [rpmemObcOpen, MsgOpen.bytes, hhdr]
    omega
  have hrecv : recvHdr s (rpmemObcOpen c x.req) = msg.hdr := by
    rw [rpmemObcOpen, hmsg, MsgOpen.bytes, append_assoc]
    exact recvHdr_bytes ..
  have htype : msg.hdr.type = RPMEM_MSG_TYPE_OPEN := by rw [← hmsg]; rfl
  have hne : RPMEM_MSG_TYPE_OPEN ≠ RPMEM_MSG_TYPE_CREATE := by decide
  rw [process_eq hrecv hcheck hlen, htype, rpmemdObcProcessCb, if_neg hne, if_pos rfl,
    rpmemdObcNtohCheckMsgOpen, cast, if_pos (by omega), rpmemObcOpen, hmsg, MsgOpen.read_bytes]
  have hntoh : (msg.ntoh s).ntoh s = msg := by simp [MsgOpen.ntoh]
  have hc : msg.c = msgCommon x.req := by rw [← hmsg]; rfl
  simp only [bind, Except.bind, hntoh, hc]
  have hchecks := checks_ok (r := (msg, x.req.pool_desc ++ [0])) hsize hhdr
  simp only [bind, Except.bind] at hchecks
  rw [hchecks]
  simp only [Functor.map, Except.map, rpmemdObcProcessOpen, hc, reqAttr_msgCommon x.desc_nul]

theorem process_setAttr (c s : Order) (pool_attr : Option PoolAttr) :
    rpmemdObcProcess s (fun _ => true) (rpmemObcSetAttr c pool_attr) =
      .ok (.set_attr (pool_attr.filter (· ≠ {}))) := by
  generalize hmsg :
    MsgSetAttr.mk { type := RPMEM_MSG_TYPE_SET_ATTR, size := 116 } (pool_attr.getD {}).pack = msg
  have hbytes : rpmemObcSetAttr c pool_attr = (msg.ntoh c).bytes c := by
    rw [rpmemObcSetAttr, PoolAttrPacked.read_bytes_pack, hmsg]
  have hlen : ((msg.ntoh c).bytes c).length = 116 := by simp [MsgSetAttr.bytes]
  have hhdr : msg.hdr = { type := RPMEM_MSG_TYPE_SET_ATTR, size := 116 } := by rw [← hmsg]
  have hattr : msg.pool_attr = (pool_attr.getD {}).pack := by rw [← hmsg]
  have hrecv : recvHdr s ((msg.ntoh c).bytes c) = msg.hdr := recvHdr_bytes ..
  have hntoh : (msg.ntoh s).ntoh s = msg := by simp [MsgSetAttr.ntoh]
  rw [hbytes, process_eq (hrecv.trans hhdr) rfl hlen, rpmemdObcProcessCb, if_neg (by decide),
    if_neg (by decide), if_neg (by decide), rpmemdObcNtohCheckMsgSetAttr, cast, if_pos hlen.ge]
  show Except.ok (rpmemdObcProcessSetAttr ((MsgSetAttr.read s _).1.ntoh s)) = _
  rw [MsgSetAttr.read_bytes, hntoh, rpmemdObcProcessSetAttr, hattr, unpackAttr_pack]

theorem process_close (c s : Order) (flags : BitVec 32) :
    rpmemdObcProcess s (fun _ => true) (rpmemObcClose c flags) =
      .ok (.close (carried c s flags)) := by
  have hlen : (rpmemObcClose c flags).length = 16 := by simp [rpmemObcClose, MsgClose.bytes]
  have hrecv : recvHdr s (rpmemObcClose c flags) = { type := RPMEM_MSG_TYPE_CLOSE, size := 16 } :=
    recvHdr_bytes ..
  rw [process_eq hrecv rfl hlen, rpmemdObcProcessCb, if_neg (by decide), if_neg (by decide),
    if_pos rfl, rpmemdObcNtohCheckMsgClose, cast, if_pos hlen.ge]
  show Except.ok (rpmemdObcProcessClose ((MsgClose.read s _).1.ntoh s)) = _
  rw [rpmemObcClose, MsgClose.read_bytes]
  rfl

/-! ### Responses -/

variable {status : BitVec 32}

variable {c : Order}

theorem recvResp_bytes {type : BitVec 32} {size : Nat} {body : List UInt8}
    (hlen : 16 + body.length = size) (hstatus : status < MAX_RPMEM_ERR) :
    recvResp c type size (((respHdr type size status).ntoh s).bytes s ++ body) =
      if status = 0 then some body else none := by
  have hle : size ≤ (((respHdr type size status).ntoh s).bytes s ++ body).length := by
    simp
    omega
  have hcheck : rpmemObcCheckHdrResp (((respHdr type size status).ntoh c).ntoh c) type
      (BitVec.ofNat 64 size) = decide (status = 0) := by
    rw [MsgHdrResp.ntoh_ntoh, rpmemObcCheckHdrResp]
    exact decide_eq_decide.mpr ⟨fun h => h.2.2.2, fun h => ⟨rfl, rfl, hstatus, h⟩⟩
  rw [recvResp, MsgHdrResp.read_bytes]
  simp only [hcheck, guard, if_pos hle, decide_eq_true_eq]
  split_ifs <;> rfl

theorem ibcAttr_ok (x : Exchange) (nlanes : BitVec 32) :
    rpmemObcCheckIbcAttr { ibcAttr x.res with nlanes := nlanes } := by
  have hlt := x.res.port.isLt
  have hport : (x.res.port.setWidth 32).toNat = x.res.port.toNat := by
    rw [BitVec.toNat_setWidth]
    omega
  have hle : x.res.port.setWidth 32 ≤ 0xffff := by
    rw [BitVec.le_def, hport]
    exact Nat.le_of_lt_succ hlt
  have hne : x.res.port.setWidth 32 ≠ 0 := by
    intro heq
    rw [heq] at hport
    exact x.port (BitVec.eq_of_toNat_eq hport.symm)
  exact decide_eq_true ⟨hne, hle, x.method⟩

def carriedRes (c s : Order) (res : RespAttr) : RespAttr :=
  { res with nlanes := carried s c res.nlanes }

theorem getRes_carried (c s : Order) (res : RespAttr) :
    rpmemObcGetRes { ibcAttr res with nlanes := load c 4 (store s 4 (ibcAttr res).nlanes) } =
      carriedRes c s res := by
  have hport : (res.port.setWidth 32).setWidth 16 = res.port := by
    rw [BitVec.setWidth_setWidth_of_le _ (by decide), BitVec.setWidth_eq]
  simp [rpmemObcGetRes, ibcAttr, carriedRes, carried, load_store, hport]

theorem recvCreateResp_eq (hstatus : status < MAX_RPMEM_ERR) :
    recvCreateResp c (rpmemdObcCreateResp s status x.res) =
      if status = 0 then some (carriedRes c s x.res) else none := by
  rw [recvCreateResp, rpmemdObcCreateResp, recvResp_bytes (by simp) hstatus]
  split_ifs with hzero
  · have hread := MsgIbcAttr.read_bytes s c (ibcAttr x.res) []
    rw [append_nil] at hread
    simp only [Option.bind_eq_bind, Option.bind_some, hread, MsgIbcAttr.ntoh_ntoh, getRes_carried]
    rw [guard, if_pos (ibcAttr_ok x _)]
    rfl
  · rfl

theorem recvOpenResp_eq (hstatus : status < MAX_RPMEM_ERR) :
    recvOpenResp c (rpmemdObcOpenResp s status x.res x.resp_attr) =
      if status = 0 then some (carriedRes c s x.res, x.resp_attr) else none := by
  rw [recvOpenResp, rpmemdObcOpenResp, recvResp_bytes (by simp) hstatus]
  split_ifs with hzero
  · have hread := PoolAttrPacked.read_bytes s c x.resp_attr.pack []
    rw [append_nil] at hread
    simp only [Option.bind_eq_bind, Option.bind_some, MsgIbcAttr.read_bytes, hread,
      MsgIbcAttr.ntoh_ntoh, getRes_carried, PoolAttrPacked.ntoh_ntoh, PoolAttr.unpack_pack]
    rw [guard, if_pos (ibcAttr_ok x _)]
    rfl
  · rfl

theorem recvResp_header {type : BitVec 32} (hstatus : status < MAX_RPMEM_ERR) :
    (recvResp c type 16 (((respHdr type 16 status).ntoh s).bytes s)).isSome =
      decide (status = 0) := by
  have hrecv := @recvResp_bytes s status c type 16 [] rfl hstatus
  rw [append_nil] at hrecv
  rw [hrecv]
  split_ifs with hzero
  · exact (decide_eq_true hzero).symm
  · exact (decide_eq_false hzero).symm

/-- Two hosts understand each other exactly if they have one byte order, or the flags and the number
of lanes are the same in both orders. -/
theorem agree_iff (c s : Order) (x : Exchange) :
    Agree c s x ↔ c = s ∨ swap 4 x.flags = x.flags ∧ swap 4 x.res.nlanes = x.res.nlanes := by
  have hzero : (0 : BitVec 32) < MAX_RPMEM_ERR := by decide
  constructor
  · intro h
    by_cases heq : c = s
    · exact .inl heq
    have hclose := h.close
    have hcreate := h.createResp
    rw [process_close, carried, if_neg heq] at hclose
    rw [recvCreateResp_eq hzero, if_pos rfl, Option.some.injEq] at hcreate
    have hlanes := congrArg RespAttr.nlanes hcreate
    rw [carriedRes, carried, if_neg (Ne.symm heq)] at hlanes
    exact .inr ⟨Callback.close.inj (Except.ok.inj hclose), hlanes⟩
  · intro h
    have hflags : carried c s x.flags = x.flags := by
      rw [carried, ite_eq_left_iff]
      exact fun hne => (h.resolve_left hne).1
    have hlanes : carriedRes c s x.res = x.res := by
      have hlanes : carried s c x.res.nlanes = x.res.nlanes := by
        rw [carried, ite_eq_left_iff]
        exact fun hne => (h.resolve_left fun heq => hne heq.symm).2
      rw [carriedRes, hlanes]
    exact {
      sent := decide_eq_true x.provider.2
      create := process_create c s x
      «open» := process_open c s x
      setAttr := process_setAttr c s x.pool_attr
      close := by rw [process_close, hflags]
      createResp := by rw [recvCreateResp_eq hzero, if_pos rfl, hlanes]
      openResp := by rw [recvOpenResp_eq hzero, if_pos rfl, hlanes]
      closeResp := recvResp_header hzero
      setAttrResp := recvResp_header hzero
      failed := fun status hne hlt => ⟨by rw [recvCreateResp_eq hlt, if_neg hne],
        by rw [recvOpenResp_eq hlt, if_neg hne],
        (recvResp_header hlt).trans (decide_eq_false hne),
        (recvResp_header hlt).trans (decide_eq_false hne)⟩ }

/-- A pool is closed with the flag `1`, between a little endian and a big endian host. -/
theorem not_agree_flags : ∃ x : Exchange, ¬ Agree .little .big x := by
  let x : Exchange :=
    { req :=
        { pool_size := 8388608, nlanes := 1, buff_size := 8192, provider := 1, pool_desc := [112] }
      pool_attr := none, flags := 1
      res := { port := 1, rkey := 0, raddr := 0, nlanes := 0, persist_method := 1 }
      resp_attr := {}, desc_pos := by decide, desc_lt := by decide, desc_nul := by decide
      provider := by decide, port := by decide, method := by decide }
  refine ⟨x, fun h => ?_⟩
  have hne : rpmemdObcProcess .big (fun _ => true) (rpmemObcClose .little 1) ≠ .ok (.close 1) := by
    decide
  exact hne h.close

end Pmdk.Rpmem
