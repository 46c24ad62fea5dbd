import GridEngine.GdiPackets

/-!
# The round trip of GDI packets

A packet that is packed and unpacked has the same tasks in the same order. Its answer finds the
tasks that were sent: the ids of the tasks that are unpacked are their places, so only the number
of tasks and the id of the packet can differ.
-/

namespace GridEngine
open ByteReader ByteReader.Reader

variable {D : Type} {xdr : Xdr D} {ns : Option (List LNameSpace)}

section Tasks

/-- The lists, the condition and the enumeration of a task can be packed. -/
structure GdiTaskData.Ok (data : GdiTaskData D) : Prop where
  dataList : data.dataList.WideFits .lListT
  answerList : data.answerList.WideFits .lListT
  condition : data.condition.Ok
  enumeration : data.enumeration.Ok

/-- The nesting of a task. -/
def GdiTaskData.depth (data : GdiTaskData D) : ℕ :=
  max (max data.dataList.depth data.answerList.depth)
    (max data.condition.depth data.enumeration.depth)

/-- What arrives of a task. -/
def receivedData (xdr : Xdr D) (ns : Option (List LNameSpace)) (data : GdiTaskData D) :
    GdiTaskData D :=
  { data with
    dataList := arrived xdr ns 0 data.dataList
    answerList := arrived xdr ns 0 data.answerList
    condition := receivedCond data.condition }

def SgeGdiTask.data (task : SgeGdiTask D) : GdiTaskData D :=
  ⟨task.target, task.command, task.dataList, task.answerList, task.condition, task.enumeration⟩

variable {packet : SgeGdiPacket D} {task : SgeGdiTask D} {fuel : ℕ}

/-- What is unpacked for a task of a packet. -/
def unpackedTask (xdr : Xdr D) (ns : Option (List LNameSpace)) (packet : SgeGdiPacket D)
    (task : SgeGdiTask D) (next : Bool) : UnpackedTask D :=
  ⟨packet.version, receivedData xdr ns task.data, receivedString packet.authInfo, task.id,
    packet.id, if next then 1 else 0⟩

/-- The bytes of a task start with its command, and the rest is read back. -/
theorem sgeGdiPacketPackTask_travels (hintern : packet.isInternRequest = false)
    (hok : task.data.Ok) (hdepth : task.data.depth < fuel) (next : Bool) :
    ∃ bytes, sgeGdiPacketPackTask xdr packet task next = .ok (packint task.command ++ bytes) ∧
      (bytes.length < 2 ^ 32 → (unpackTask xdr ns fuel task.command).Reads bytes
        (unpackedTask xdr ns packet task next)) := by
  obtain ⟨hdata, hanswer, hcondition, henumeration⟩ := hok
  simp only [GdiTaskData.depth, max_lt_iff, SgeGdiTask.data] at hdepth
  have hflags : CULL_IS_REDUCED &&& 0 = 0 := by decide
  obtain ⟨dataBytes, hdataBytes, hdataReads⟩ := cullUnpackListPartial_travels xdr ns hflags hdata
    (hdepth.1.1.le.trans (Nat.le_succ fuel))
  obtain ⟨answerBytes, hanswerBytes, hanswerReads⟩ := cullUnpackListPartial_travels xdr ns hflags
    hanswer (hdepth.1.2.le.trans (Nat.le_succ fuel))
  obtain ⟨condBytes, hcondBytes, hcondReads⟩ :=
    @cullUnpackCond_travels D xdr ns fuel _ hcondition hdepth.2.1
  have henumReads := cullUnpackEnum_reads _ henumeration hdepth.2.2
  refine ⟨_, by
    rw [sgeGdiPacketPackTask, hintern, if_neg (by decide), show cullPackListPartial xdr 0
      task.dataList = _ from hdataBytes, show cullPackListPartial xdr 0 task.answerList = _ from
      hanswerBytes, show cullPackCond xdr task.condition = _ from hcondBytes]
    rfl, ?_⟩
  intro hlen
  simp only [List.length_append] at hlen
  unfold unpackTask
  apply (unpackint_reads _).bind
  apply (unpackint_reads _).bind
  apply (hdataReads (by omega)).bind
  apply (hanswerReads (by omega)).bind
  apply (hcondReads (by omega)).bind
  apply henumReads.bind
  apply (unpackstr_reads (by omega)).bind
  apply (unpackint_reads _).bind
  apply (unpackint_reads _).bind
  exact (unpackint_reads _).map

theorem packTasks_true (packet : SgeGdiPacket D) (tasks : List (SgeGdiTask D)) :
    (packTasks xdr packet true tasks).1 = true := by
  induction tasks with
  | nil => rfl
  | cons task rest ih =>
      rw [packTasks, if_pos rfl]
      exact ih

theorem packTasks_cons (task : SgeGdiTask D) (rest : List (SgeGdiTask D)) :
    (packTasks xdr packet true (task :: rest)).2 =
      sgeGdiPacketPackTask xdr packet task (!rest.isEmpty) ::
        (packTasks xdr packet true rest).2 := by
  rw [packTasks, if_pos rfl]
  rfl

/-- The packet in which a task is stored. -/
def storedIn (packet stored : SgeGdiPacket D) (first : Bool) : SgeGdiPacket D :=
  if first then
    { stored with
      id := packet.id
      version := packet.version
      authInfo := receivedString packet.authInfo }
  else stored

theorem unpackTasks_travels (hintern : packet.isInternRequest = false) {n : ℕ}
    (tasks : List (SgeGdiTask D)) (hne : tasks ≠ []) (hok : ∀ task ∈ tasks, task.data.Ok)
    (hdepth : ∀ task ∈ tasks, task.data.depth < fuel) (hlen : tasks.length ≤ n) :
    ∃ chunks : List (List UInt8), (packTasks xdr packet true tasks).2 = chunks.map .ok ∧
      ∀ first stored, chunks.flatten.length < 2 ^ 32 →
        (unpackTasks xdr ns fuel n first stored).Reads chunks.flatten
          ((tasks.map fun task => receivedData xdr ns task.data).foldl sgeGdiPacketAppendTask
            (storedIn packet stored first), none) := by
  induction tasks generalizing n with
  | nil => exact absurd rfl hne
  | cons task rest ih =>
      obtain ⟨n, rfl⟩ := Nat.exists_eq_add_of_le' (Nat.one_le_of_lt hlen)
      obtain ⟨bytes, hbytes, hreads⟩ := @sgeGdiPacketPackTask_travels D xdr ns packet task fuel
        hintern (hok task List.mem_cons_self) (hdepth task List.mem_cons_self) (!rest.isEmpty)
      rw [packTasks_cons, hbytes]
      have hstored : ∀ first stored, storeTask first stored
          (unpackedTask xdr ns packet task !rest.isEmpty) = sgeGdiPacketAppendTask
            (storedIn packet stored first) (receivedData xdr ns task.data) := by
        intro first stored
        cases first <;> rfl
      cases rest with
      | nil =>
          refine ⟨[packint task.command ++ bytes], rfl, ?_⟩
          intro first stored hsize
          simp only [List.flatten_cons, List.flatten_nil, List.append_nil] at hsize ⊢
          rw [List.length_append] at hsize
          apply (unpackint_reads _).attempt.bind
          apply (hreads (by omega)).attempt.bind_nil
          change (pure (storeTask first stored _, none) : Unpack _).Reads [] _
          rw [hstored]
          exact Reads.pure _
      | cons task' rest =>
          obtain ⟨chunks, hchunks, hrest⟩ := ih (n := n) (by simp)
            (fun t ht => hok t (List.mem_cons_of_mem _ ht))
            (fun t ht => hdepth t (List.mem_cons_of_mem _ ht)) (Nat.le_of_succ_le_succ hlen)
          refine ⟨(packint task.command ++ bytes) :: chunks, by rw [hchunks]; rfl, ?_⟩
          intro first stored hsize
          rw [List.flatten_cons] at hsize ⊢
          simp only [List.length_append] at hsize
          rw [List.append_assoc]
          apply (unpackint_reads _).attempt.bind
          apply (hreads (by omega)).attempt.bind
          change (unpackTasks xdr ns fuel n false (storeTask first stored _)).Reads _ _
          rw [hstored]
          exact hrest false _ (by omega)

end Tasks

section Ids
variable {packet retPacket : SgeGdiPacket D} {requests : List (GdiTaskData D)}

/-- The tasks are numbered by their places, from 1. -/
def Numbered (tasks : List (SgeGdiTask D)) : Prop :=
  tasks.map SgeGdiTask.id = (List.range tasks.length).map fun k => UInt32.ofNat (k + 1)

theorem Numbered.nextTaskId (h : Numbered packet.tasks) :
    nextTaskId packet = UInt32.ofNat (packet.tasks.length + 1) := by
  rw [GridEngine.nextTaskId]
  cases hlast : packet.tasks.getLast? with
  | none =>
      rw [List.getLast?_eq_none_iff.mp hlast]
      rfl
  | some task =>
      have hid : (packet.tasks.map SgeGdiTask.id).getLast? = some task.id := by
        rw [List.getLast?_map, hlast]
        rfl
      have hpos : packet.tasks.length ≠ 0 := by
        intro hzero
        rw [List.length_eq_zero_iff.mp hzero] at hlast
        cases hlast
      obtain ⟨n, hn⟩ := Nat.exists_eq_succ_of_ne_zero hpos
      rw [h, hn, List.range_succ, List.map_append, List.map_singleton, List.getLast?_concat] at hid
      have hid' : task.id = UInt32.ofNat (n + 1) := (Option.some.inj hid).symm
      change task.id + 1 = _
      rw [hid', hn]
      exact (UInt32.ofNat_add (n + 1) 1).symm

theorem Numbered.append (h : Numbered packet.tasks) (data : GdiTaskData D) :
    Numbered (sgeGdiPacketAppendTask packet data).tasks := by
  have hnext := h.nextTaskId
  rw [Numbered] at h
  rw [sgeGdiPacketAppendTask, Numbered, List.map_append, h, List.length_append,
    List.length_singleton, List.range_succ, List.map_append, hnext]
  rfl

theorem Numbered.foldl (h : Numbered packet.tasks) (requests : List (GdiTaskData D)) :
    Numbered (requests.foldl sgeGdiPacketAppendTask packet).tasks := by
  induction requests generalizing packet with
  | nil => exact h
  | cons data requests ih => exact ih (h.append data)

theorem foldl_appendTask (requests : List (GdiTaskData D)) (packet : SgeGdiPacket D) :
    ∃ tasks : List (SgeGdiTask D), tasks.map SgeGdiTask.data = requests ∧
      requests.foldl sgeGdiPacketAppendTask packet =
        { packet with tasks := packet.tasks ++ tasks } := by
  induction requests generalizing packet with
  | nil => exact ⟨[], rfl, by simp⟩
  | cons data requests ih =>
      obtain ⟨tasks, htasks, hfold⟩ := ih (sgeGdiPacketAppendTask packet data)
      refine ⟨⟨nextTaskId packet, data.command, data.target, data.dataList, data.answerList,
        data.condition, data.enumeration⟩ :: tasks, ?_, ?_⟩
      · rw [List.map_cons, htasks]
        rfl
      · rw [List.foldl_cons, hfold, sgeGdiPacketAppendTask, List.append_assoc]
        rfl

theorem mergeTasks_snd {sends recvs : List (SgeGdiTask D)} :
    (mergeTasks sends recvs).2 = true ↔ sends.map SgeGdiTask.id = recvs.map SgeGdiTask.id := by
  induction sends generalizing recvs with
  | nil => cases recvs <;> simp [mergeTasks]
  | cons send sends ih =>
      cases recvs with
      | nil => simp [mergeTasks]
      | cons recv recvs =>
          rw [mergeTasks]
          split_ifs with hid
          · simp [hid, ih]
          · simp [hid]

theorem Numbered.map_id_eq_iff {sends recvs : List (SgeGdiTask D)} (hsends : Numbered sends)
    (hrecvs : Numbered recvs) :
    sends.map SgeGdiTask.id = recvs.map SgeGdiTask.id ↔ sends.length = recvs.length := by
  constructor
  · intro h
    simpa using congrArg List.length h
  · intro h
    rw [hsends, hrecvs, h]

theorem mergeTasks_fst {sends recvs : List (SgeGdiTask D)}
    (h : sends.map SgeGdiTask.id = recvs.map SgeGdiTask.id) :
    (mergeTasks sends recvs).1 = List.zipWith (fun send recv =>
      { send with dataList := recv.dataList, answerList := recv.answerList }) sends recvs := by
  induction sends generalizing recvs with
  | nil => cases recvs <;> rfl
  | cons send sends ih =>
      cases recvs with
      | nil => cases h
      | cons recv recvs =>
          rw [List.map_cons, List.map_cons, List.cons.injEq] at h
          rw [mergeTasks, if_pos h.1]
          exact congrArg (_ :: ·) (ih h.2)

end Ids

section RoundTrip
variable {requests : List (GdiTaskData D)} {fuel : ℕ}

/-- The authentication of the packet that is sent. -/
def sentAuthInfo (authInfo : Option CString) : AuthToken → Option CString
  | .ok cred => some cred
  | _ => authInfo

/-- The packet of a client. -/
def clientPacket (id version : UInt32) (authInfo : Option CString)
    (requests : List (GdiTaskData D)) : SgeGdiPacket D :=
  requests.foldl sgeGdiPacketAppendTask ⟨id, version, authInfo, false, []⟩

/-- The packet that `sge_gdi_packet_unpack` makes of that of a client. -/
def serverPacket (xdr : Xdr D) (ns : Option (List LNameSpace)) (id version : UInt32)
    (authInfo : Option CString) (requests : List (GdiTaskData D)) : SgeGdiPacket D :=
  clientPacket id version (receivedString authInfo) (requests.map (receivedData xdr ns))

theorem clientPacket_eq (id version : UInt32) (authInfo : Option CString)
    (requests : List (GdiTaskData D)) : ∃ tasks : List (SgeGdiTask D),
      tasks.map SgeGdiTask.data = requests ∧
        clientPacket id version authInfo requests = ⟨id, version, authInfo, false, tasks⟩ :=
  foldl_appendTask requests ⟨id, version, authInfo, false, []⟩

theorem clientPacket_numbered (id version : UInt32) (authInfo : Option CString)
    (requests : List (GdiTaskData D)) :
    Numbered (clientPacket id version authInfo requests).tasks := by
  have hnil : Numbered ([] : List (SgeGdiTask D)) := rfl
  exact @Numbered.foldl D ⟨id, version, authInfo, false, []⟩ hnil requests

/-- What is packed for a packet is unpacked as the packet of the server. -/
theorem packTasks_roundTrip (xdr : Xdr D) (ns : Option (List LNameSpace)) {packet : SgeGdiPacket D}
    (hintern : packet.isInternRequest = false) (hne : packet.tasks ≠ [])
    (hok : ∀ task ∈ packet.tasks, task.data.Ok) (hlen : packet.tasks.length ≤ fuel)
    (hdepth : ∀ task ∈ packet.tasks, task.data.depth < fuel) :
    ∃ chunks : List (List UInt8), (packTasks xdr packet true packet.tasks).2 = chunks.map .ok ∧
      (chunks.flatten.length < 2 ^ 32 → (sgeGdiPacketUnpack xdr ns fuel).Reads chunks.flatten
        (serverPacket xdr ns packet.id packet.version packet.authInfo
          (packet.tasks.map SgeGdiTask.data), none)) := by
  obtain ⟨chunks, hchunks, hreads⟩ := @unpackTasks_travels D xdr ns packet fuel hintern fuel
    packet.tasks hne hok hdepth hlen
  refine ⟨chunks, hchunks, ?_⟩
  intro hsize
  have hreads' := hreads true sgeGdiPacketCreateBase hsize
  rw [serverPacket, List.map_map]
  exact hreads'

theorem sgeGdiPacketPack_eq {token : AuthToken} (htoken : token ≠ .failed)
    (packet : SgeGdiPacket D) : sgeGdiPacketPack xdr token packet =
      (true, (packTasks xdr packet true packet.tasks).2,
        { packet with authInfo := sentAuthInfo packet.authInfo token }) := by
  have hret := @packTasks_true D xdr packet packet.tasks
  rw [sgeGdiPacketPack]
  generalize packTasks xdr packet true packet.tasks = packed at *
  obtain ⟨ret, results⟩ := packed
  subst hret
  cases token with
  | ok cred => rfl
  | noMethod => rfl
  | failed => exact absurd rfl htoken

/-- A request for nothing. -/
def emptyRequest : GdiTaskData UInt64 := ⟨10, 1, .nullList, .nullList, .null, .null⟩

theorem emptyRequest_ok : ∀ data ∈ [emptyRequest], data.Ok := by
  intro data hdata
  rw [List.mem_singleton.mp hdata]
  exact ⟨trivial, trivial, trivial, .null⟩

theorem emptyRequest_depth : ∀ data ∈ [emptyRequest], data.depth < 2 := by
  intro data hdata
  rw [List.mem_singleton.mp hdata]
  decide

/-- The packet of the server after its tasks were executed. -/
def SgeGdiPacket.executed (exec : SgeGdiTask D → SgeGdiTask D) (packet : SgeGdiPacket D) :
    SgeGdiPacket D :=
  { packet with tasks := packet.tasks.map exec }

/-- The tasks that were sent, with what arrives of the lists of the executed tasks. -/
def answeredTasks (xdr : Xdr D) (ns : Option (List LNameSpace)) :
    List (SgeGdiTask D) → List (SgeGdiTask D) → List (SgeGdiTask D) :=
  List.zipWith fun send task =>
    { send with
      dataList := arrived xdr ns 0 task.dataList
      answerList := arrived xdr ns 0 task.answerList }

/-- The answers stand at the places of the tasks. -/
theorem takeAnswer_answered (id version : UInt32) (authInfo authInfo' : Option CString)
    {executed : List (SgeGdiTask D)} (hcount : executed.length = requests.length) :
    let client := clientPacket id version authInfo requests
    takeAnswer client (clientPacket id version authInfo'
        ((executed.map SgeGdiTask.data).map (receivedData xdr ns))) =
      ({ client with tasks := answeredTasks xdr ns client.tasks executed }, true) := by
  intro client
  obtain ⟨sends, hsends, hclient⟩ := clientPacket_eq id version authInfo requests
  replace hclient : client = ⟨id, version, authInfo, false, sends⟩ := hclient
  have hclientIds : Numbered client.tasks := clientPacket_numbered id version authInfo requests
  have hanswerIds := clientPacket_numbered id version authInfo'
    ((executed.map SgeGdiTask.data).map (receivedData xdr ns))
  obtain ⟨answers, hanswers, hanswer⟩ := clientPacket_eq id version authInfo'
    ((executed.map SgeGdiTask.data).map (receivedData xdr ns))
  rw [hanswer] at hanswerIds
  have hlengths : client.tasks.length = answers.length := by
    have h₁ := congrArg List.length hsends
    have h₂ := congrArg List.length hanswers
    simp only [List.length_map] at h₁ h₂
    rw [hclient, h₁, h₂, hcount]
  have hids := (hclientIds.map_id_eq_iff hanswerIds).mpr hlengths
  have hmerge : mergeTasks client.tasks answers = (_, true) :=
    Prod.ext (mergeTasks_fst hids) (mergeTasks_snd.mpr hids)
  have hzip : List.zipWith (fun send recv : SgeGdiTask D =>
      { send with dataList := recv.dataList, answerList := recv.answerList }) client.tasks answers =
      answeredTasks xdr ns client.tasks executed := by
    let give (send : SgeGdiTask D) (data : GdiTaskData D) : SgeGdiTask D :=
      { send with dataList := data.dataList, answerList := data.answerList }
    have hleft : List.zipWith give client.tasks (answers.map SgeGdiTask.data) =
        List.zipWith (fun send recv => give send recv.data) client.tasks answers :=
      List.zipWith_map_right
    rw [hanswers, List.map_map, List.zipWith_map_right] at hleft
    exact hleft.symm
  rw [hanswer, takeAnswer, hmerge, hclient]
  rw [hclient] at hzip
  simp only [decide_true, Bool.and_true, hzip]

end RoundTrip

section Hostile
variable {fuel : ℕ}

theorem unpackTask_bounded (command : UInt32) :
    Bounded fuel (unpackTask xdr ns fuel command) := by
  have hlist : Bounded fuel (cullUnpackListPartial xdr ns fuel 0) :=
    (cullUnpackListWith_bounded (cullUnpackSwitch_bounded fuel)).anti (Nat.le_succ fuel)
  unfold unpackTask
  apply unpackint_bounded.bind
  intro target
  apply unpackint_bounded.bind
  intro version
  apply hlist.bind
  intro dataList
  apply hlist.bind
  intro answerList
  apply (cullUnpackCond_bounded fuel).bind
  intro condition
  apply (cullUnpackEnum_bounded fuel).bind
  intro enumeration
  apply unpackstr_bounded.bind
  intro authInfo
  apply unpackint_bounded.bind
  intro taskId
  apply unpackint_bounded.bind
  intro packetId
  exact unpackint_bounded.bind fun hasNextInt => Bounded.pure _

/-- Every task takes at least one byte. -/
theorem unpackTasks_bounded {n : ℕ} (hn : n ≤ fuel) (first : Bool) (packet : SgeGdiPacket D) :
    Bounded n (unpackTasks xdr ns fuel n first packet) := by
  induction n generalizing first packet with
  | zero => exact Bounded.outOfFuel
  | succ n ih =>
      rw [unpackTasks]
      refine unpackint_bounded.attempt_bind unpackint_advances ?_ fun e => Bounded.pure _
      intro command
      have htask : Bounded n (unpackTask xdr ns fuel command) :=
        (unpackTask_bounded command).anti (Nat.le_of_succ_le hn)
      apply htask.attempt.bind
      rintro (e | task)
      · exact Bounded.pure _
      · dsimp only
        split_ifs
        · exact ih (Nat.le_of_succ_le hn) false _
        · exact Bounded.pure _

/-- The tasks that are unpacked are numbered, whatever the ids are on the wire. -/
theorem unpackTasks_numbered {n : ℕ} {first : Bool} {packet packet' : SgeGdiPacket D}
    {e : Option PackError} {c c' : Cursor} (h : Numbered packet.tasks)
    (hrun : unpackTasks xdr ns fuel n first packet c = (.success (packet', e), c')) :
    Numbered packet'.tasks := by
  induction n generalizing first packet c with
  | zero => cases hrun
  | succ n ih =>
      rw [unpackTasks] at hrun
      obtain ⟨command | command, c₁, -, hrun⟩ := bind_eq_success hrun
      · cases hrun
        exact h
      · obtain ⟨task | task, c₂, -, hrun⟩ := bind_eq_success hrun
        · cases hrun
          exact h
        · have hstored : Numbered (storeTask first packet task).tasks := by
            rw [storeTask]
            cases first with
            | true =>
                let packet : SgeGdiPacket D := { packet with
                  id := task.packetId, version := task.version, authInfo := task.authInfo }
                exact @Numbered.append D packet h task.data
            | false => exact h.append task.data
          dsimp only at hrun
          split_ifs at hrun
          · exact ih hstored hrun
          · cases hrun
            exact hstored

end Hostile

end GridEngine
