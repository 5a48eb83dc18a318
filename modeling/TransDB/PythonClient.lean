/-
`transDB.py`: what the bundled client makes of the responses.

A response begins with token and flags; what follows depends on the opcode, and only
the payload behind it is compressed. `socket_run` computes the length of this header
from the opcode again. For the response to `C_MSG_WRITE_DATA_NUM` it compares with the
opcode of the request, and hands its header on as data.

The handlers are modelled from the bytes of the request to those of the response; what
the storage, the log or a script puts behind the header is an argument.
-/
import TransDB.ClientSocketWorkerLists
import TransDB.Packet

set_option autoImplicit false

namespace TransDB

open ByteList

/-! ## The requests -/

/-- `zlib` of Python: `decompress` of a gzip stream, `none` for a `zlib.error`, and the
`compressobj` of `writeDataNum`. -/
structure Zlib where
  decompress : List UInt8 → Option (List UInt8)
  compress : List UInt8 → List UInt8

/-- `GZIP` -/
def GZIP : UInt32 := 1

/-- The functions of `transDB.py` that send a request. -/
inductive Request
  | stats
  | fragment
  | readData (x y : UInt64)
  | writeData (x y : UInt64) (data : List UInt8)
  | deleteData (x y : UInt64)
  | writeDataNum (x : UInt64) (data : List UInt8)
  | readLog
  | readConfig
  | executePythonScript (script : List UInt8)

namespace Request

/-- The packet of a request; `struct.pack` puts the numbers one behind another. -/
def packet (zlib : Zlib) (token : UInt32) : Request → Packet
  | stats => ⟨13, toLE 4 token.toNat⟩
  | fragment => ⟨21, toLE 4 token.toNat ++ toLE 4 0 ++ toLE 4 1⟩
  | readData x y => ⟨3, toLE 4 token.toNat ++ toLE 4 0 ++ toLE 8 x.toNat ++ toLE 8 y.toNat⟩
  | writeData x y data =>
    ⟨1, toLE 4 token.toNat ++ toLE 4 0 ++ toLE 8 x.toNat ++ toLE 8 y.toNat ++ data⟩
  | deleteData x y => ⟨5, toLE 4 token.toNat ++ toLE 4 0 ++ toLE 8 x.toNat ++ toLE 8 y.toNat⟩
  | writeDataNum x data =>
    if 4096 < data.length then
      ⟨23, toLE 4 token.toNat ++ toLE 4 GZIP.toNat ++ toLE 8 x.toNat ++ zlib.compress data⟩
    else ⟨23, toLE 4 token.toNat ++ toLE 4 0 ++ toLE 8 x.toNat ++ data⟩
  | readLog => ⟨25, toLE 4 token.toNat⟩
  | readConfig => ⟨27, toLE 4 token.toNat⟩
  | executePythonScript script => ⟨31, toLE 4 token.toNat ++ toLE 4 0 ++ script⟩

/-- What a request waits for: nothing but the header, or the data that the handler has put
behind it. -/
def expected (payload : List UInt8) : Request → List UInt8
  | writeData _ _ _ | deleteData _ _ | writeDataNum _ _ => []
  | _ => payload

end Request

/-! ## The handlers -/

namespace ClientSocketWorkerTask

/-- The configuration of the compression. -/
structure CompressCfg where
  GzipCompressionLevel : Int
  DataSizeForCompression : Int

variable (sh : Shared) (ps : PacketShared) (cfg : CompressCfg)

/-- The compressed data, if it is longer than `limit` and compression does not fail; `limit` is
`DataSizeForCompression` in the type it is compared in. -/
def compressed (limit : ℕ) (data : List UInt8) : Option (List UInt8) :=
  if limit < data.length then ps.compressGzip cfg.GzipCompressionLevel data else none

/-- The end of a handler that sends data; `fields` is what it has put behind token and flags. -/
def sendData (limit : ℕ) (opcode : UInt16) (token flags fields data : List UInt8) : Packet :=
  --try to compress
  match compressed ps cfg limit data with
  | some pBuffOut => ⟨opcode, token ++ toLE 4 ps.ePF_COMPRESSED.toNat ++ fields ++ pBuffOut⟩
  | none => ⟨opcode, token ++ flags ++ fields ++ data⟩

/-- `(uint32)g_cfg.DataSizeForCompression` -/
def limit32 : ℕ := (cfg.DataSizeForCompression % 2 ^ 32).toNat

/-- `(size_t)g_cfg.DataSizeForCompression` -/
def limit64 : ℕ := (cfg.DataSizeForCompression % 2 ^ 64).toNat

/-- `ClientSocketWorkerTask::HandleReadData`; `data` is what `ReadData` appends. -/
def HandleReadData (m_pData data : List UInt8) : Packet :=
  let (token, rest) := Blman.bbuffRead sh m_pData 4
  let (flags, rest) := Blman.bbuffRead sh rest 4
  let (X, rest) := Blman.bbuffRead sh rest 8
  let (Y, _) := Blman.bbuffRead sh rest 8
  sendData ps cfg (limit32 cfg) 4 token flags (X ++ Y) data

/-- A handler whose response has token and flags only in front of the data. -/
def respondData (opcode : UInt16) (m_pData data : List UInt8) : Packet :=
  let (token, rest) := Blman.bbuffRead sh m_pData 4
  let (flags, _) := Blman.bbuffRead sh rest 4
  sendData ps cfg (limit64 cfg) opcode token flags [] data

/-- `ClientSocketWorkerTask::HandleStatus`; `data` are the statistics. -/
def HandleStatus (m_pData data : List UInt8) : Packet := respondData sh ps cfg 14 m_pData data

/-- `DumpFreeSpaceThread::run` for the request of `HandleGetFreeSpace`, which comes to it by way
of the disk writer; `data` is the dump its flags ask for. -/
def HandleGetFreeSpace (m_pData data : List UInt8) : Packet :=
  respondData sh ps cfg 22 m_pData data

/-- `ClientSocketWorkerTask::HandleReadLog`; `data` is the content of the log. -/
def HandleReadLog (m_pData data : List UInt8) : Packet := respondData sh ps cfg 26 m_pData data

/-- `ClientSocketWorkerTask::HandleReadConfig`; `data` is the content of the file. -/
def HandleReadConfig (m_pData data : List UInt8) : Packet := respondData sh ps cfg 28 m_pData data

/-- `ClientSocketWorkerTask::HandleExecutePythonScript`; `data` is the result of the script. -/
def HandleExecutePythonScript (m_pData data : List UInt8) : Packet :=
  respondData sh ps cfg 32 m_pData data

/-- The response of `ClientSocketWorkerTask::HandleWriteData`. -/
def writeDataResponse (writeStatus : UInt32) (m_pData : List UInt8) : Packet :=
  let (token, rest) := Blman.bbuffRead sh m_pData 4
  let (flags, rest) := Blman.bbuffRead sh rest 4
  let (X, rest) := Blman.bbuffRead sh rest 8
  let (Y, _) := Blman.bbuffRead sh rest 8
  ⟨2, token ++ flags ++ X ++ Y ++ toLE 4 writeStatus.toNat⟩

/-- The response of `ClientSocketWorkerTask::HandleDeleteData`. -/
def deleteDataResponse (m_pData : List UInt8) : Packet :=
  let (token, rest) := Blman.bbuffRead sh m_pData 4
  let (flags, rest) := Blman.bbuffRead sh rest 4
  let (X, rest) := Blman.bbuffRead sh rest 8
  let (Y, _) := Blman.bbuffRead sh rest 8
  ⟨6, token ++ flags ++ X ++ Y⟩

/-- The response of `ClientSocketWorkerTask::HandleWriteDataNum`. -/
def writeDataNumResponse (writeStatus : UInt32) (m_pData : List UInt8) : Packet :=
  let (token, rest) := Blman.bbuffRead sh m_pData 4
  let (flags, rest) := Blman.bbuffRead sh rest 4
  let (X, pData) := Blman.bbuffRead sh rest 8
  let (flags, _) := decompressBody ps (UInt32.ofNat (ofLE flags)) pData
  ⟨24, token ++ toLE 4 flags.toNat ++ X ++ toLE 4 writeStatus.toNat⟩

/-- The response to a packet of `transDB.py`, by `m_ClientSocketWorkerTaskHandlers`; `data` and
`writeStatus` are what the handler gets from the rest of the server. -/
def respond (data : List UInt8) (writeStatus : UInt32) (packet : Packet) : Option Packet :=
  if packet.opcode = 1 then some (writeDataResponse sh writeStatus packet.payload)
  else if packet.opcode = 3 then some (HandleReadData sh ps cfg packet.payload data)
  else if packet.opcode = 5 then some (deleteDataResponse sh packet.payload)
  else if packet.opcode = 13 then some (HandleStatus sh ps cfg packet.payload data)
  else if packet.opcode = 21 then some (HandleGetFreeSpace sh ps cfg packet.payload data)
  else if packet.opcode = 23 then some (writeDataNumResponse sh ps writeStatus packet.payload)
  else if packet.opcode = 25 then some (HandleReadLog sh ps cfg packet.payload data)
  else if packet.opcode = 27 then some (HandleReadConfig sh ps cfg packet.payload data)
  else if packet.opcode = 31 then some (HandleExecutePythonScript sh ps cfg packet.payload data)
  else none

end ClientSocketWorkerTask

namespace ClientSocketWorkerTask

variable {sh : Shared} {ps : PacketShared} {cfg : CompressCfg}
  {token flags X Y data : List UInt8} {writeStatus : UInt32}

/-- The flags of a request that carries none: what `bbuff_read` leaves of them. -/
def leftFlags (sh : Shared) : List UInt8 := (Blman.bbuffRead sh [] 4).1

theorem length_leftFlags (sh : Shared) : (leftFlags sh).length = 4 := List.takeD_length _ _ _

theorem bbuffRead_whole {bytes : List UInt8} {n : ℕ} (hn : bytes.length = n) :
    Blman.bbuffRead sh bytes n = (bytes, []) := by
  have h := Blman.bbuffRead_append sh bytes [] hn
  rwa [List.append_nil] at h

theorem HandleReadData_eq (htoken : token.length = 4) (hflags : flags.length = 4)
    (hX : X.length = 8) (hY : Y.length = 8) :
    HandleReadData sh ps cfg (token ++ flags ++ X ++ Y) data
      = sendData ps cfg (limit32 cfg) 4 token flags (X ++ Y) data := by
  simp only [HandleReadData, List.append_assoc, Blman.bbuffRead_append sh _ _ htoken,
    Blman.bbuffRead_append sh _ _ hflags, Blman.bbuffRead_append sh _ _ hX, bbuffRead_whole hY]

theorem respondData_eq {opcode : UInt16} {rest : List UInt8} (htoken : token.length = 4)
    (hflags : flags.length = 4) :
    respondData sh ps cfg opcode (token ++ flags ++ rest) data
      = sendData ps cfg (limit64 cfg) opcode token flags [] data := by
  simp only [respondData, List.append_assoc, Blman.bbuffRead_append sh _ _ htoken,
    Blman.bbuffRead_append sh _ _ hflags]

/-- A request that ends with its token. -/
theorem respondData_token {opcode : UInt16} (htoken : token.length = 4) :
    respondData sh ps cfg opcode token data
      = sendData ps cfg (limit64 cfg) opcode token (leftFlags sh) [] data := by
  simp only [respondData, bbuffRead_whole htoken]
  rfl

theorem writeDataResponse_eq (htoken : token.length = 4) (hflags : flags.length = 4)
    (hX : X.length = 8) (hY : Y.length = 8) :
    writeDataResponse sh writeStatus (token ++ flags ++ X ++ Y ++ data)
      = ⟨2, token ++ flags ++ (X ++ Y ++ toLE 4 writeStatus.toNat) ++ []⟩ := by
  simp only [writeDataResponse, List.append_assoc, Blman.bbuffRead_append sh _ _ htoken,
    Blman.bbuffRead_append sh _ _ hflags, Blman.bbuffRead_append sh _ _ hX,
    Blman.bbuffRead_append sh _ _ hY, List.append_nil]

theorem deleteDataResponse_eq (htoken : token.length = 4) (hflags : flags.length = 4)
    (hX : X.length = 8) (hY : Y.length = 8) :
    deleteDataResponse sh (token ++ flags ++ X ++ Y) = ⟨6, token ++ flags ++ (X ++ Y) ++ []⟩ := by
  simp only [deleteDataResponse, List.append_assoc, Blman.bbuffRead_append sh _ _ htoken,
    Blman.bbuffRead_append sh _ _ hflags, Blman.bbuffRead_append sh _ _ hX, bbuffRead_whole hY,
    List.append_nil]

theorem writeDataNumResponse_eq (htoken : token.length = 4) (hflags : flags.length = 4)
    (hX : X.length = 8) :
    writeDataNumResponse sh ps writeStatus (token ++ flags ++ X ++ data)
      = ⟨24, token ++ toLE 4 (decompressBody ps (UInt32.ofNat (ofLE flags)) data).1.toNat ++ []
          ++ (X ++ toLE 4 writeStatus.toNat)⟩ := by
  simp only [writeDataNumResponse, List.append_assoc, Blman.bbuffRead_append sh _ _ htoken,
    Blman.bbuffRead_append sh _ _ hflags, Blman.bbuffRead_append sh _ _ hX, List.nil_append]

/-- The flags of the response to a list do not say that it is compressed. -/
theorem decompressBody_flags (hgzip : ps.ePF_COMPRESSED = GZIP) (hnull : ps.ePF_NULL ≠ GZIP)
    (hfailed : ps.ePF_DECOMPRESS_FAILED ≠ GZIP) (f : UInt32) :
    (decompressBody ps f data).1 ≠ GZIP := by
  rw [decompressBody]
  split
  case isTrue hset =>
    split
    · exact hnull
    · exact hfailed
  case isFalse hset =>
    intro hf
    rw [hgzip] at hset
    exact hset (by rw [show f = GZIP from hf]; decide)

end ClientSocketWorkerTask

/-- What the client relies on: its `zlib` inverts the compression of the server, a stream that is
cut off is a `zlib.error`, and a stream is not much longer than its data. -/
structure Zlib.Inverts (zlib : Zlib) (ps : ClientSocketWorkerTask.PacketShared) : Prop where
  decompress : ∀ level data out, ps.compressGzip level data = some out →
    zlib.decompress out = some data
  truncated : ∀ level data out n, ps.compressGzip level data = some out → n < out.length →
    zlib.decompress (out.take n) = none
  bound : ∀ level data out, ps.compressGzip level data = some out → data.length < 2 ^ 32 →
    out.length < data.length + 2 ^ 31

/-! ## The client -/

namespace PythonClient

open ClientSocketWorkerTask

/-- The length of the header that `socket_run` computes. -/
def headerLength (opcode : UInt16) : ℕ :=
  --uint32 token, flag
  8 + if opcode = 4 then 16
    else if opcode = 6 then 16
    else if opcode = 2 then 20
    -- C_MSG_WRITE_DATA_NUM
    else if opcode = 23 then 12
    else 0

/-- The packet that `socket_run` receives: a header and as many bytes as it says. `none` is a
connection that breaks before. -/
def recvPacket (stream : List UInt8) : Option Packet :=
  let packetHeader := PackerHeader.ofBytes (stream.take sizeofPackerHeader)
  let rest := stream.drop sizeofPackerHeader
  if sizeofPackerHeader ≤ stream.length ∧ packetHeader.m_size ≤ rest.length then
    some ⟨packetHeader.m_opcode, rest.take packetHeader.m_size⟩
  else none

/-- What `socket_run` puts into the receive queue for the packet that comes next. `none` is
nothing: the packet is a ping, or it is too short for token and flags (a `struct.error`). -/
def socket_run (zlib : Zlib) (stream : List UInt8) : Option (UInt32 × List UInt8) := do
  let packet ← recvPacket stream
  let data := packet.payload
  if packet.opcode = 10 then none
  else
    let offset := headerLength packet.opcode
    --get token + flags -> if GZIP decompress
    if 8 ≤ data.length then
      let token := UInt32.ofNat (ofLE (slice data 0 4))
      let flag := UInt32.ofNat (ofLE (slice data 4 4))
      if flag = GZIP then some (token, (zlib.decompress (data.drop offset)).getD data)
      else some (token, data.drop offset)
    else none

variable {zlib : Zlib} {opcode : UInt16} {token : UInt32} {flags fields body payload : List UInt8}

theorem headerLength_le (opcode : UInt16) : headerLength opcode ≤ 28 := by
  unfold headerLength
  split_ifs <;> decide

/-- What arrives of a packet: 32 bits of its size were sent. -/
theorem recvPacket_encode (p : Packet) :
    recvPacket p.encode = some ⟨p.opcode, p.payload.take (p.payload.length % 2 ^ 32)⟩ := by
  have hlen : p.header.toBytes.length = sizeofPackerHeader := p.header.length_toBytes
  have htake : p.encode.take sizeofPackerHeader = p.header.toBytes := List.take_left' hlen
  have hdrop : p.encode.drop sizeofPackerHeader = p.payload := List.drop_left' hlen
  have hmod : p.payload.length % 2 ^ 32 ≤ p.payload.length := Nat.mod_le _ _
  rw [recvPacket, htake, hdrop, PackerHeader.ofBytes_toBytes_mod, Packet.header]
  exact if_pos ⟨by rw [Packet.length_encode]; exact Nat.le_add_right _ _, hmod⟩

theorem ofNat_ofLE_toLE (n : UInt32) : UInt32.ofNat (ofLE (toLE 4 n.toNat)) = n := by
  rw [ofLE_toLE_of_lt n.toNat_lt, UInt32.ofNat_toNat]

/-- The bytes of a response that its header announces. -/
def announced (fields body : List UInt8) : ℕ := (8 + fields.length + body.length) % 2 ^ 32

/-- The size field has room for the length of the response. -/
theorem announced_of_fits (h : 8 + fields.length + body.length < 2 ^ 32) :
    announced fields body = 8 + fields.length + body.length := Nat.mod_eq_of_lt h

/-- What the client receives of a response. -/
def arrived (token : UInt32) (flags fields body : List UInt8) : List UInt8 :=
  (toLE 4 token.toNat ++ flags ++ fields ++ body).take (announced fields body)

theorem length_arrived (hflags : flags.length = 4) :
    (arrived token flags fields body).length = announced fields body := by
  have hlen : (toLE 4 token.toNat ++ flags ++ fields ++ body).length
      = 8 + fields.length + body.length := by
    simp only [List.length_append, length_toLE, hflags]
  rw [arrived, List.length_take, hlen]
  exact Nat.min_eq_left (Nat.mod_le _ _)

/-- Behind the header there is what has been announced of the body. -/
theorem arrived_body (hflags : flags.length = 4) :
    (arrived token flags fields body).drop (8 + fields.length)
      = body.take (announced fields body - (8 + fields.length)) := by
  have hheader : (toLE 4 token.toNat ++ flags ++ fields).length = 8 + fields.length := by
    simp only [List.length_append, length_toLE, hflags]
  rw [arrived, List.drop_take, List.drop_left' hheader]

theorem arrived_token (h8 : 8 ≤ announced fields body) :
    slice (arrived token flags fields body) 0 4 = toLE 4 token.toNat := by
  rw [slice, arrived, List.drop_zero, List.take_take, Nat.min_eq_left (by omega)]
  simp only [List.append_assoc]
  exact List.take_left' (length_toLE 4 _)

theorem arrived_flags (hflags : flags.length = 4) (h8 : 8 ≤ announced fields body) :
    slice (arrived token flags fields body) 4 4 = flags := by
  rw [slice, arrived, List.drop_take, List.take_take, Nat.min_eq_left (by omega)]
  simp only [List.append_assoc]
  rw [List.drop_left' (length_toLE 4 _)]
  exact List.take_left' hflags

/-- A response whose header is as long as the client takes it for: the client finds token and
flags, and of the body what is announced. -/
theorem socket_run_response (hflags : flags.length = 4) (hping : opcode ≠ 10)
    (hheader : headerLength opcode = 8 + fields.length) :
    socket_run zlib (Packet.encode ⟨opcode, toLE 4 token.toNat ++ flags ++ fields ++ body⟩)
      = if 8 ≤ announced fields body then
          some (token,
            if UInt32.ofNat (ofLE flags) = GZIP then
              (zlib.decompress (body.take (announced fields body - (8 + fields.length)))).getD
                (arrived token flags fields body)
            else body.take (announced fields body - (8 + fields.length)))
        else none := by
  have hlen : (toLE 4 token.toNat ++ flags ++ fields ++ body).length
      = 8 + fields.length + body.length := by
    simp only [List.length_append, length_toLE, hflags]
  simp only [socket_run, recvPacket_encode, Option.bind_eq_bind, Option.bind_some, hlen,
    if_neg hping, hheader, ← announced.eq_1, ← arrived.eq_1, length_arrived hflags,
    arrived_body hflags]
  by_cases h8 : 8 ≤ announced fields body
  · rw [if_pos h8, if_pos h8, arrived_token h8, arrived_flags hflags h8, ofNat_ofLE_toLE]
    split <;> rfl
  · rw [if_neg h8, if_neg h8]

/-- What the client hands on for a token. -/
theorem handed_on {P : Prop} [Decidable P] {data : List UInt8}
    (h : (if P then some (token, data) else none) = some (token, payload)) :
    P ∧ data = payload := by
  split at h
  case isTrue hp => exact ⟨hp, (Prod.mk.inj (Option.some.inj h)).2⟩
  case isFalse => cases h

/-- A body that is not flagged as compressed is handed on if it is announced. -/
theorem socket_run_plain (hflags : flags.length = 4) (hping : opcode ≠ 10)
    (hheader : headerLength opcode = 8 + fields.length)
    (hflag : UInt32.ofNat (ofLE flags) ≠ GZIP) :
    socket_run zlib (Packet.encode ⟨opcode, toLE 4 token.toNat ++ flags ++ fields ++ body⟩)
        = some (token, body)
      ↔ 8 + fields.length + body.length < 2 ^ 32 := by
  rw [socket_run_response hflags hping hheader, if_neg hflag]
  have hann : announced fields body < 2 ^ 32 := Nat.mod_lt _ (by decide)
  have hle := headerLength_le opcode
  constructor
  · intro h
    obtain ⟨h8, hbody⟩ := handed_on h
    have hlen := congrArg List.length hbody
    rw [List.length_take] at hlen
    by_contra hbig
    omega
  · intro hfits
    rw [announced_of_fits hfits, if_pos (by omega), Nat.add_sub_cancel_left, List.take_length]

/-- A compressed body is handed on decompressed if it is announced. -/
theorem socket_run_compressed {ps : PacketShared} {level : Int} (hzlib : zlib.Inverts ps)
    (hflags : flags.length = 4) (hping : opcode ≠ 10)
    (hheader : headerLength opcode = 8 + fields.length)
    (hflag : UInt32.ofNat (ofLE flags) = GZIP) (hbody : ps.compressGzip level payload = some body) :
    socket_run zlib (Packet.encode ⟨opcode, toLE 4 token.toNat ++ flags ++ fields ++ body⟩)
        = some (token, payload)
      ↔ 8 + fields.length + body.length < 2 ^ 32 := by
  rw [socket_run_response hflags hping hheader, if_pos hflag]
  have hmod : announced fields body = (8 + fields.length + body.length) % 2 ^ 32 := rfl
  have hle := headerLength_le opcode
  constructor
  · intro h
    by_contra hbig
    have hcut : zlib.decompress (body.take (announced fields body - (8 + fields.length))) = none :=
      hzlib.truncated _ _ _ _ hbody (by omega)
    rw [hcut, Option.getD_none] at h
    -- the client hands on what has arrived, header and all
    obtain ⟨-, hpayload⟩ := handed_on h
    have hlen := congrArg List.length hpayload
    rw [length_arrived hflags] at hlen
    have hbound := hzlib.bound _ _ _ hbody (by omega)
    omega
  · intro hfits
    rw [announced_of_fits hfits, if_pos (by omega), Nat.add_sub_cancel_left, List.take_length,
      hzlib.decompress _ _ _ hbody, Option.getD_some]

/-- What arrives of a payload in a response that falsely says it is compressed decompresses to
the payload. -/
def Inflates (zlib : Zlib) (payload : List UInt8) : Prop :=
  8 ≤ announced [] payload
    ∧ zlib.decompress (payload.take (announced [] payload - 8)) = some payload

theorem socket_run_inflates (hflags : flags.length = 4) (hping : opcode ≠ 10)
    (hheader : headerLength opcode = 8 + ([] : List UInt8).length)
    (hflag : UInt32.ofNat (ofLE flags) = GZIP) :
    socket_run zlib (Packet.encode ⟨opcode, toLE 4 token.toNat ++ flags ++ [] ++ payload⟩)
        = some (token, payload)
      ↔ Inflates zlib payload := by
  rw [socket_run_response hflags hping hheader, if_pos hflag, Inflates, List.length_nil,
    Nat.add_zero]
  have hmod : announced [] payload = (8 + payload.length) % 2 ^ 32 := rfl
  cases hdata : zlib.decompress (payload.take (announced [] payload - 8)) with
  | some data =>
    rw [Option.getD_some]
    constructor
    · intro h
      obtain ⟨h8, hpayload⟩ := handed_on h
      exact ⟨h8, congrArg some hpayload⟩
    · rintro ⟨h8, hpayload⟩
      rw [if_pos h8, Option.some.inj hpayload]
  | none =>
    refine iff_of_false (fun h => ?_) (fun h => by cases h.2)
    obtain ⟨-, hpayload⟩ := handed_on h
    have hlen := congrArg List.length hpayload
    rw [Option.getD_none, length_arrived hflags] at hlen
    omega

/-! ## The payloads that come back -/

section Decodes

variable {sh : Shared} {ps : PacketShared} {cfg : CompressCfg} {limit : ℕ}

/-- What is sent for the payload fits into a packet behind a header of that length. -/
def Fits (ps : PacketShared) (cfg : CompressCfg) (limit header : ℕ) (payload : List UInt8) : Prop :=
  header + ((compressed ps cfg limit payload).getD payload).length < 2 ^ 32

/-- A response with data, if its flags tell whether they are compressed. -/
theorem sendData_decodes_iff (hzlib : zlib.Inverts ps) (hgzip : ps.ePF_COMPRESSED = GZIP)
    (hflags : flags.length = 4) (hping : opcode ≠ 10)
    (hheader : headerLength opcode = 8 + fields.length)
    (hflag : compressed ps cfg limit payload = none → UInt32.ofNat (ofLE flags) ≠ GZIP) :
    socket_run zlib (sendData ps cfg limit opcode (toLE 4 token.toNat) flags fields payload).encode
        = some (token, payload)
      ↔ Fits ps cfg limit (8 + fields.length) payload := by
  rw [sendData, Fits]
  cases hc : compressed ps cfg limit payload with
  | none => exact socket_run_plain hflags hping hheader (hflag hc)
  | some pBuffOut =>
    have hbody : ps.compressGzip cfg.GzipCompressionLevel payload = some pBuffOut := by
      rw [compressed] at hc
      split at hc
      · exact hc
      · cases hc
    have hcompressed : UInt32.ofNat (ofLE (toLE 4 ps.ePF_COMPRESSED.toNat)) = GZIP :=
      (ofNat_ofLE_toLE _).trans hgzip
    exact socket_run_compressed hzlib (length_toLE _ _) hping hheader hcompressed hbody

/-- The condition on the server and the payload under which the client hands on what the
handler sent. A request of a status, the log or the configuration ends with its token, so that
the flags of an uncompressed response are what `bbuff_read` leaves. -/
def Decodable (sh : Shared) (ps : PacketShared) (cfg : CompressCfg) (zlib : Zlib)
    (payload : List UInt8) : Request → Prop
  | .writeData _ _ _ | .deleteData _ _ => True
  | .writeDataNum _ _ => False
  | .readData _ _ => Fits ps cfg (limit32 cfg) 24 payload
  | .fragment | .executePythonScript _ => Fits ps cfg (limit64 cfg) 8 payload
  | .stats | .readLog | .readConfig =>
    if compressed ps cfg (limit64 cfg) payload = none
        ∧ UInt32.ofNat (ofLE (leftFlags sh)) = GZIP then Inflates zlib payload
    else Fits ps cfg (limit64 cfg) 8 payload

/-- The response to a request with token and flags in front of the rest. -/
theorem respondData_decodes_iff (hzlib : zlib.Inverts ps) (hgzip : ps.ePF_COMPRESSED = GZIP)
    (hping : opcode ≠ 10) (hheader : headerLength opcode = 8) (token : UInt32)
    (rest : List UInt8) :
    socket_run zlib
        (respondData sh ps cfg opcode (toLE 4 token.toNat ++ toLE 4 0 ++ rest) payload).encode
        = some (token, payload)
      ↔ Fits ps cfg (limit64 cfg) 8 payload := by
  have hflag : UInt32.ofNat (ofLE (toLE 4 0)) ≠ GZIP := by decide
  rw [respondData_eq (length_toLE _ _) (length_toLE _ _)]
  exact sendData_decodes_iff hzlib hgzip (length_toLE _ _) hping hheader fun _ => hflag

/-- The response to a request that ends with its token. -/
theorem respondData_token_decodes_iff (hzlib : zlib.Inverts ps) (hgzip : ps.ePF_COMPRESSED = GZIP)
    (hping : opcode ≠ 10) (hheader : headerLength opcode = 8) (token : UInt32) :
    socket_run zlib (respondData sh ps cfg opcode (toLE 4 token.toNat) payload).encode
        = some (token, payload)
      ↔ if compressed ps cfg (limit64 cfg) payload = none
            ∧ UInt32.ofNat (ofLE (leftFlags sh)) = GZIP then Inflates zlib payload
        else Fits ps cfg (limit64 cfg) 8 payload := by
  rw [respondData_token (length_toLE _ _)]
  by_cases hleft : compressed ps cfg (limit64 cfg) payload = none
      ∧ UInt32.ofNat (ofLE (leftFlags sh)) = GZIP
  · obtain ⟨hc, hflag⟩ := hleft
    rw [if_pos ⟨hc, hflag⟩, sendData, hc]
    exact socket_run_inflates (length_leftFlags sh) hping hheader hflag
  · rw [if_neg hleft]
    exact sendData_decodes_iff hzlib hgzip (length_leftFlags sh) hping hheader
      fun hc hflag => hleft ⟨hc, hflag⟩

/-- The response to a read. -/
theorem HandleReadData_decodes_iff (hzlib : zlib.Inverts ps) (hgzip : ps.ePF_COMPRESSED = GZIP)
    (token : UInt32) (x y : UInt64) :
    socket_run zlib (HandleReadData sh ps cfg
        (toLE 4 token.toNat ++ toLE 4 0 ++ toLE 8 x.toNat ++ toLE 8 y.toNat) payload).encode
        = some (token, payload)
      ↔ Fits ps cfg (limit32 cfg) 24 payload := by
  have hlen : (toLE 8 x.toNat ++ toLE 8 y.toNat).length = 16 := by
    rw [List.length_append, length_toLE, length_toLE]
  have hheader : headerLength 4 = 8 + (toLE 8 x.toNat ++ toLE 8 y.toNat).length := by
    rw [hlen]
    rfl
  have hflag : UInt32.ofNat (ofLE (toLE 4 0)) ≠ GZIP := by decide
  rw [HandleReadData_eq (length_toLE _ _) (length_toLE _ _) (length_toLE _ _) (length_toLE _ _),
    sendData_decodes_iff hzlib hgzip (length_toLE _ _) (by decide) hheader fun _ => hflag, hlen]

/-- A response that is header only. -/
theorem header_decodes (hflags : flags.length = 4) (hping : opcode ≠ 10)
    (hheader : headerLength opcode = 8 + fields.length)
    (hflag : UInt32.ofNat (ofLE flags) ≠ GZIP) :
    socket_run zlib (Packet.encode ⟨opcode, toLE 4 token.toNat ++ flags ++ fields ++ []⟩)
      = some (token, []) := by
  have hle := headerLength_le opcode
  have hfits : 8 + fields.length + ([] : List UInt8).length < 2 ^ 32 := by
    rw [List.length_nil]
    omega
  exact (socket_run_plain hflags hping hheader hflag).mpr hfits

/-- The response to a write. -/
theorem writeDataResponse_decodes (token writeStatus : UInt32) (x y : UInt64) (data : List UInt8) :
    socket_run zlib (writeDataResponse sh writeStatus
        (toLE 4 token.toNat ++ toLE 4 0 ++ toLE 8 x.toNat ++ toLE 8 y.toNat ++ data)).encode
      = some (token, []) := by
  rw [writeDataResponse_eq (length_toLE _ _) (length_toLE _ _) (length_toLE _ _) (length_toLE _ _)]
  refine header_decodes (length_toLE _ _) (by decide) ?_ (by decide)
  simp only [List.length_append, length_toLE]
  rfl

/-- The response to a delete. -/
theorem deleteDataResponse_decodes (token : UInt32) (x y : UInt64) :
    socket_run zlib (deleteDataResponse sh
        (toLE 4 token.toNat ++ toLE 4 0 ++ toLE 8 x.toNat ++ toLE 8 y.toNat)).encode
      = some (token, []) := by
  rw [deleteDataResponse_eq (length_toLE _ _) (length_toLE _ _) (length_toLE _ _) (length_toLE _ _)]
  refine header_decodes (length_toLE _ _) (by decide) ?_ (by decide)
  simp only [List.length_append, length_toLE]
  rfl

/-- Of the response to many writes the client hands on X and status. -/
theorem writeDataNumResponse_run (hgzip : ps.ePF_COMPRESSED = GZIP) (hnull : ps.ePF_NULL ≠ GZIP)
    (hfailed : ps.ePF_DECOMPRESS_FAILED ≠ GZIP) (token writeStatus : UInt32)
    (hflags : flags.length = 4) (x : UInt64) (data : List UInt8) :
    socket_run zlib (writeDataNumResponse sh ps writeStatus
        (toLE 4 token.toNat ++ flags ++ toLE 8 x.toNat ++ data)).encode
      = some (token, toLE 8 x.toNat ++ toLE 4 writeStatus.toNat) := by
  rw [writeDataNumResponse_eq (length_toLE _ _) hflags (length_toLE _ _)]
  have hflag := @decompressBody_flags ps data hgzip hnull hfailed (UInt32.ofNat (ofLE flags))
  rw [← ofNat_ofLE_toLE (decompressBody ps (UInt32.ofNat (ofLE flags)) data).1] at hflag
  refine (socket_run_plain (length_toLE _ _) (by decide) rfl hflag).mpr ?_
  simp only [List.length_append, length_toLE]
  decide

theorem exists_response {o : Option Packet} {r : Packet} {q : Option (UInt32 × List UInt8)}
    (h : o = some r) : (∃ response, o = some response ∧ socket_run zlib response.encode = q)
      ↔ socket_run zlib r.encode = q := by
  rw [h]
  simp only [Option.some.injEq, exists_eq_left']

/-- **The client decodes what the server sends**, if the response fits into a packet, exactly for
these requests: never for records written in one request, whose response it takes for data, and
for a status, the log and the configuration only if the flags say what the body is. -/
theorem client_decodes_iff (sh : Shared) (ps : PacketShared) (cfg : CompressCfg) (zlib : Zlib)
    (hzlib : zlib.Inverts ps) (hgzip : ps.ePF_COMPRESSED = GZIP) (hnull : ps.ePF_NULL ≠ GZIP)
    (hfailed : ps.ePF_DECOMPRESS_FAILED ≠ GZIP) (request : Request) (token writeStatus : UInt32)
    (payload : List UInt8) :
    (∃ response, respond sh ps cfg payload writeStatus (request.packet zlib token) = some response
        ∧ socket_run zlib response.encode = some (token, request.expected payload))
      ↔ Decodable sh ps cfg zlib payload request := by
  cases request with
  | stats =>
    have h : respond sh ps cfg payload writeStatus (Request.packet zlib token .stats)
      = some (respondData sh ps cfg 14 (toLE 4 token.toNat) payload) := rfl
    exact (exists_response h).trans
      (respondData_token_decodes_iff hzlib hgzip (by decide) (by decide) token)
  | fragment =>
    have h : respond sh ps cfg payload writeStatus (Request.packet zlib token .fragment)
      = some (respondData sh ps cfg 22 (toLE 4 token.toNat ++ toLE 4 0 ++ toLE 4 1) payload) := rfl
    exact (exists_response h).trans
      (respondData_decodes_iff hzlib hgzip (by decide) (by decide) token _)
  | readData x y =>
    have h : respond sh ps cfg payload writeStatus (Request.packet zlib token (.readData x y))
      = some (HandleReadData sh ps cfg
          (toLE 4 token.toNat ++ toLE 4 0 ++ toLE 8 x.toNat ++ toLE 8 y.toNat) payload) := rfl
    exact (exists_response h).trans (HandleReadData_decodes_iff hzlib hgzip token x y)
  | writeData x y data =>
    have h : respond sh ps cfg payload writeStatus (Request.packet zlib token (.writeData x y data))
      = some (writeDataResponse sh writeStatus
          (toLE 4 token.toNat ++ toLE 4 0 ++ toLE 8 x.toNat ++ toLE 8 y.toNat ++ data)) := rfl
    exact (exists_response h).trans
      (iff_true_intro (writeDataResponse_decodes token writeStatus x y data))
  | deleteData x y =>
    have h : respond sh ps cfg payload writeStatus (Request.packet zlib token (.deleteData x y))
      = some (deleteDataResponse sh
          (toLE 4 token.toNat ++ toLE 4 0 ++ toLE 8 x.toNat ++ toLE 8 y.toNat)) := rfl
    exact (exists_response h).trans (iff_true_intro (deleteDataResponse_decodes token x y))
  | writeDataNum x data =>
    obtain ⟨flags, body, hflags, hpacket⟩ : ∃ flags body, flags.length = 4
        ∧ Request.packet zlib token (.writeDataNum x data)
          = ⟨23, toLE 4 token.toNat ++ flags ++ toLE 8 x.toNat ++ body⟩ := by
      rw [Request.packet]
      split
      · exact ⟨_, _, length_toLE _ _, rfl⟩
      · exact ⟨_, _, length_toLE _ _, rfl⟩
    have h : respond sh ps cfg payload writeStatus
        ⟨23, toLE 4 token.toNat ++ flags ++ toLE 8 x.toNat ++ body⟩
      = some (writeDataNumResponse sh ps writeStatus
          (toLE 4 token.toNat ++ flags ++ toLE 8 x.toNat ++ body)) := rfl
    rw [hpacket, exists_response h,
      writeDataNumResponse_run hgzip hnull hfailed token writeStatus hflags x body]
    refine iff_of_false (fun hdecoded => ?_) id
    have hdata : toLE 8 x.toNat ++ toLE 4 writeStatus.toNat = [] :=
      (Prod.mk.inj (Option.some.inj hdecoded)).2
    have hlen := congrArg List.length hdata
    rw [List.length_append, length_toLE, length_toLE] at hlen
    cases hlen
  | readLog =>
    have h : respond sh ps cfg payload writeStatus (Request.packet zlib token .readLog)
      = some (respondData sh ps cfg 26 (toLE 4 token.toNat) payload) := rfl
    exact (exists_response h).trans
      (respondData_token_decodes_iff hzlib hgzip (by decide) (by decide) token)
  | readConfig =>
    have h : respond sh ps cfg payload writeStatus (Request.packet zlib token .readConfig)
      = some (respondData sh ps cfg 28 (toLE 4 token.toNat) payload) := rfl
    exact (exists_response h).trans
      (respondData_token_decodes_iff hzlib hgzip (by decide) (by decide) token)
  | executePythonScript script =>
    have h : respond sh ps cfg payload writeStatus
        (Request.packet zlib token (.executePythonScript script))
      = some (respondData sh ps cfg 32 (toLE 4 token.toNat ++ toLE 4 0 ++ script) payload) := rfl
    exact (exists_response h).trans
      (respondData_decodes_iff hzlib hgzip (by decide) (by decide) token _)

end Decodes

/-- Three bytes, and what gzip makes of them. -/
def three : List UInt8 := [1, 2, 3]

def threeGzip : List UInt8 :=
  [31, 139, 8, 0, 0, 0, 0, 0, 0, 3, 99, 100, 98, 6, 0, 29, 128, 188, 85, 3, 0, 0, 0]

/-- A `zlib` for these three bytes, on both sides. -/
def threeZlib : Zlib where
  decompress stream := if stream = threeGzip then some three else none
  compress _ := threeGzip

def threeShared : PacketShared where
  ePF_NULL := 0
  ePF_COMPRESSED := 1
  ePF_DECOMPRESS_FAILED := 2
  decompressGzip stream := if stream = threeGzip then some three else none
  compressGzip _ data := if data = three then some threeGzip else none

theorem threeShared_compress {level : Int} {data out : List UInt8}
    (h : threeShared.compressGzip level data = some out) : data = three ∧ out = threeGzip := by
  have h' : (if data = three then some threeGzip else none) = some out := h
  split at h'
  case isTrue hdata => exact ⟨hdata, (Option.some.inj h').symm⟩
  case isFalse => cases h'

theorem threeZlib_inverts : threeZlib.Inverts threeShared where
  decompress level data out h := by
    obtain ⟨rfl, rfl⟩ := threeShared_compress h
    rfl
  truncated level data out n h hn := by
    obtain ⟨-, rfl⟩ := threeShared_compress h
    refine if_neg fun heq => ?_
    have hlen := congrArg List.length heq
    rw [List.length_take] at hlen
    omega
  bound level data out h _ := by
    obtain ⟨rfl, rfl⟩ := threeShared_compress h
    decide

/-- Three bytes are sent compressed and come back. -/
theorem client_decodes_three : ∃ response,
    respond Shared.plain threeShared ⟨5, 2⟩ three 0 (Request.packet threeZlib 7 (.readData 5 2))
        = some response
      ∧ socket_run threeZlib response.encode = some (7, three) := by
  have hfits : Fits threeShared ⟨5, 2⟩ (limit32 ⟨5, 2⟩) 24 three := by
    rw [Fits]
    decide
  exact (client_decodes_iff Shared.plain threeShared ⟨5, 2⟩ threeZlib threeZlib_inverts rfl
    (by decide) (by decide) (.readData 5 2) 7 0 three).mpr hfits

/-- One record is written in a request for many: the client hands on X and status. -/
theorem client_misreads_header :
    (¬ ∃ response, respond Shared.plain threeShared ⟨5, 1024⟩ [] 1
          (Request.packet threeZlib 7 (.writeDataNum 5 [2, 0, 0, 0, 0, 0, 0, 0, 1, 0, 9]))
          = some response
        ∧ socket_run threeZlib response.encode
          = some (7, Request.expected [] (.writeDataNum 5 [2, 0, 0, 0, 0, 0, 0, 0, 1, 0, 9])))
      ∧ (respond Shared.plain threeShared ⟨5, 1024⟩ [] 1
          (Request.packet threeZlib 7 (.writeDataNum 5 [2, 0, 0, 0, 0, 0, 0, 0, 1, 0, 9]))).bind
          (fun response => socket_run threeZlib response.encode)
        = some (7, [5, 0, 0, 0, 0, 0, 0, 0, 1, 0, 0, 0]) := by
  have hrun : (respond Shared.plain threeShared ⟨5, 1024⟩ [] 1
          (Request.packet threeZlib 7 (.writeDataNum 5 [2, 0, 0, 0, 0, 0, 0, 0, 1, 0, 9]))).bind
          (fun response => socket_run threeZlib response.encode)
        = some (7, [5, 0, 0, 0, 0, 0, 0, 0, 1, 0, 0, 0]) := by decide
  refine ⟨?_, hrun⟩
  rintro ⟨response, hresponse, hdecoded⟩
  rw [hresponse, Option.bind_some, hdecoded] at hrun
  exact absurd hrun (by decide)

end PythonClient

end TransDB
