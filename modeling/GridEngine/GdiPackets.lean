import GridEngine.CullQueries
import GridEngine.CullBounds

/-!
# Packets of GDI requests

`sge_gdi_packet_pack` and `sge_gdi_packet_unpack`. A packet has tasks, each with its lists, its
condition and its enumeration. On the wire each task says whether another one follows, and repeats
what the tasks have in common.
-/

namespace GridEngine
open ByteReader ByteReader.Reader

variable {D : Type}

/-- A `sge_gdi_task_class_t`. -/
structure SgeGdiTask (D : Type) where
  id : UInt32
  command : UInt32
  target : UInt32
  dataList : LMultiType D
  answerList : LMultiType D
  condition : LCondition D
  enumeration : LEnumeration

/-- A `sge_gdi_packet_class_t`, with the list that starts at `first_task`. -/
structure SgeGdiPacket (D : Type) where
  id : UInt32
  version : UInt32
  authInfo : Option CString
  isInternRequest : Bool
  tasks : List (SgeGdiTask D)

/-- `GRM_GDI_VERSION` -/
def GRM_GDI_VERSION : UInt32 := 0x10003001

/-- `sge_gdi_packet_create_base` -/
def sgeGdiPacketCreateBase : SgeGdiPacket D := ⟨0, GRM_GDI_VERSION, none, false, []⟩

/-- What a task is made of. -/
structure GdiTaskData (D : Type) where
  target : UInt32
  command : UInt32
  dataList : LMultiType D
  answerList : LMultiType D
  condition : LCondition D
  enumeration : LEnumeration

/-- The id that `sge_gdi_task_create` takes. -/
def nextTaskId (packet : SgeGdiPacket D) : UInt32 :=
  match packet.tasks.getLast? with
  | some task => task.id + 1
  | none => 1

/-- `sge_gdi_packet_append_task`, with `sge_gdi_task_create` -/
def sgeGdiPacketAppendTask (packet : SgeGdiPacket D) (data : GdiTaskData D) : SgeGdiPacket D :=
  { packet with
    tasks := packet.tasks ++ [⟨nextTaskId packet, data.command, data.target, data.dataList,
      data.answerList, data.condition, data.enumeration⟩] }

section Pack
variable (xdr : Xdr D)

/-- `sge_gdi_packet_pack_task`; `next` says whether the task has a successor. -/
def sgeGdiPacketPackTask (packet : SgeGdiPacket D) (task : SgeGdiTask D) (next : Bool) :
    Except PackError (List UInt8) :=
  if packet.isInternRequest then .ok []
  else do
    let dataList ← cullPackListPartial xdr 0 task.dataList
    let answerList ← cullPackListPartial xdr 0 task.answerList
    let condition ← cullPackCond xdr task.condition
    .ok (packint task.command ++ (packint task.target ++ (packint packet.version ++
      (dataList ++ (answerList ++ (condition ++ (cullPackEnum task.enumeration ++
      (packstr packet.authInfo ++ (packint task.id ++ (packint packet.id ++
      packint (if next then 1 else 0)))))))))))

/-- The results of `sge_put_auth_token`. -/
inductive AuthToken
  | ok (cred : CString)
  | noMethod
  | failed

/-- The loop of `sge_gdi_packet_pack`. What the tasks return is combined with `|=`. -/
def packTasks (packet : SgeGdiPacket D) :
    Bool → List (SgeGdiTask D) → Bool × List (Except PackError (List UInt8))
  | ret, [] => (ret, [])
  | ret, task :: rest =>
      if ret then
        let result := sgeGdiPacketPackTask xdr packet task !rest.isEmpty
        let (ret, results) := packTasks packet (ret || result.isOk) rest
        (ret, result :: results)
      else (ret, [])

/-- `sge_gdi_packet_pack`, with the results of its tasks and the packet after it. The token is put
into the packet after the tasks are packed. -/
def sgeGdiPacketPack (token : AuthToken) (packet : SgeGdiPacket D) :
    Bool × List (Except PackError (List UInt8)) × SgeGdiPacket D :=
  let (ret, results) := packTasks xdr packet true packet.tasks
  match token with
  | .ok cred => (ret, results, { packet with authInfo := some cred })
  | .noMethod => (ret, results, packet)
  | .failed => (false, results, packet)

/-- The packing in `sge_gdi_packet_execute_external`: first for `sge_gdi_packet_get_pb_size`, then
into the buffer, which is not initialized when the first one failed. -/
def packForSending (first second : AuthToken) (packet : SgeGdiPacket D) :
    Option (Bool × List (Except PackError (List UInt8))) :=
  let (sized, _, packet) := sgeGdiPacketPack xdr first packet
  let (ret, results, _) := sgeGdiPacketPack xdr second packet
  if sized then some (ret, results) else none

end Pack

section Unpack
variable (xdr : Xdr D) (ns : Option (List LNameSpace))

/-- What is unpacked for a task. -/
structure UnpackedTask (D : Type) where
  version : UInt32
  data : GdiTaskData D
  authInfo : Option CString
  taskId : UInt32
  packetId : UInt32
  hasNextInt : UInt32

/-- The part of the loop of `sge_gdi_packet_unpack` that reads a task behind its command. -/
def unpackTask (fuel : ℕ) (command : UInt32) : Unpack (UnpackedTask D) := do
  let target ← unpackint
  let version ← unpackint
  let dataList ← cullUnpackListPartial xdr ns fuel 0
  let answerList ← cullUnpackListPartial xdr ns fuel 0
  let condition ← cullUnpackCond xdr ns fuel
  let enumeration ← cullUnpackEnum fuel
  let authInfo ← unpackstr
  let taskId ← unpackint
  let packetId ← unpackint
  let hasNextInt ← unpackint
  pure ⟨version, ⟨target, command, dataList, answerList, condition, enumeration⟩, authInfo, taskId,
    packetId, hasNextInt⟩

/-- The part of the loop that stores a task; the first one brings the data of the packet. -/
def storeTask (first : Bool) (packet : SgeGdiPacket D) (task : UnpackedTask D) : SgeGdiPacket D :=
  let packet := if first then
      { packet with id := task.packetId, version := task.version, authInfo := task.authInfo }
    else packet
  sgeGdiPacketAppendTask packet task.data

/-- The loop of `sge_gdi_packet_unpack`. An error ends it, and the packet is kept. -/
def unpackTasks (fuel : ℕ) :
    ℕ → Bool → SgeGdiPacket D → Unpack (SgeGdiPacket D × Option PackError)
  | 0, _, _ => outOfFuel
  | n + 1, first, packet => do
      match ← attempt unpackint with
      | .error e => pure (packet, some e)
      | .ok command =>
          match ← attempt (unpackTask xdr ns fuel command) with
          | .error e => pure (packet, some e)
          | .ok task =>
              let packet := storeTask first packet task
              if 0 < task.hasNextInt then unpackTasks fuel n false packet
              else pure (packet, none)

/-- `sge_gdi_packet_unpack` -/
def sgeGdiPacketUnpack (fuel : ℕ) : Unpack (SgeGdiPacket D × Option PackError) :=
  unpackTasks xdr ns fuel fuel true sgeGdiPacketCreateBase

end Unpack

/-- The consistency check of `sge_gdi_packet_execute_external`: the tasks as they are after it, and
whether it passed. -/
def mergeTasks : List (SgeGdiTask D) → List (SgeGdiTask D) → List (SgeGdiTask D) × Bool
  | [], [] => ([], true)
  | send :: sends, recv :: recvs =>
      if send.id = recv.id then
        let (tasks, ok) := mergeTasks sends recvs
        ({ send with dataList := recv.dataList, answerList := recv.answerList } :: tasks, ok)
      else (send :: sends, false)
  | sends, _ => (sends, false)

/-- The part of `sge_gdi_packet_execute_external` that takes the answer. -/
def takeAnswer (packet retPacket : SgeGdiPacket D) : SgeGdiPacket D × Bool :=
  let (tasks, ok) := mergeTasks packet.tasks retPacket.tasks
  ({ packet with tasks := tasks }, packet.id = retPacket.id && ok)

end GridEngine
