import KataCpp.Core.LoopingCalls
import KataCpp.Network.ComplaintCalls

/-!
# The complaint server's messages

A client sends a `struct message`, and the server answers most of them with
one.  The texts in a message are C strings in arrays of fixed size; what the
server reads is only defined when the arrays that it uses hold a NUL.

The server is compared with a list of complaints: for any messages of any
clients the answers are those for the list, and the heap holds the elements and
strings of the complaints in it and nothing else.
-/

namespace KataCpp.ComplaintQueue

open Bytes Iteration LinkedList TransitionSystem

def apartmentSize : ℕ := 8

def remarksSize : ℕ := 128

/-- `sizeof(struct message)` -/
def messageSize : ℕ := 4 + apartmentSize + remarksSize

structure Message where
  messageId : BitVec 32
  apartmentId : ByteString
  remarks : ByteString
  deriving DecidableEq

/-- `LOG_COMPLAINT` and the other requests. -/
def logComplaint : BitVec 32 := 1
def giveMeAComplaint : BitVec 32 := 2
def giveComplaint4apt : BitVec 32 := 3
def resolveComplaint : BitVec 32 := 4
def quit : BitVec 32 := 0

/-- `NEXT_COMPLAINT` and the other answers. -/
def nextComplaintId : BitVec 32 := 11
def noMoreComplaints : BitVec 32 := 12
def noComplaint4thisApt : BitVec 32 := 13
def complaintAdded : BitVec 32 := 14
def complaintDeleted : BitVec 32 := 15

/-- `memset(&message, '\0', sizeof(struct message))` -/
def Message.zero : Message where
  messageId := 0
  apartmentId := List.replicate apartmentSize 0
  remarks := List.replicate remarksSize 0

/-- An integer from its bytes, the least significant one first. -/
def int32 (bytes : ByteString) : BitVec 32 :=
  BitVec.ofNat 32 (bytes.foldr (fun byte value => byte.toNat + 256 * value) 0)

/-- What a message holds after bytes have been read over zeros. -/
def Message.received (bytes : ByteString) : Message :=
  let memory := bytes ++ List.replicate (messageSize - bytes.length) 0
  { messageId := int32 (memory.take 4)
    apartmentId := (memory.drop 4).take apartmentSize
    remarks := (memory.drop (4 + apartmentSize)).take remarksSize }

/-- The bytes of a message, as they are passed to `write`. -/
def Message.bytes (message : Message) : ByteString :=
  [message.messageId.toNat.toUInt8, (message.messageId.toNat / 256).toUInt8,
    (message.messageId.toNat / 65536).toUInt8,
    (message.messageId.toNat / 16777216).toUInt8] ++
    message.apartmentId ++ message.remarks

def cString (field : ByteString) : Option ByteString :=
  if 0 ∈ field then some (field.takeWhile (· ≠ 0)) else none

/-- What the server does about a message: it writes one back, closes the
connection, or does nothing. -/
inductive Effect (Reply : Type) where
  | write (reply : Reply)
  | close
  | ignore
  deriving DecidableEq

/-- The `switch` over the message that has been read. -/
def serve {Addr : Type} [DecidableEq Addr] (fuel : ℕ) (store : Store Addr)
    (blocks : Blocks Addr) (recvMessage : Message) :
    Option (Effect Message × Store Addr) :=
  let sendMessage := Message.zero
  if recvMessage.messageId = logComplaint then do
    let source ← cString recvMessage.apartmentId
    let remarks ← cString recvMessage.remarks
    let (dest, store) ←
      addToComplaintQ blocks source remarks sendMessage.apartmentId store
    return (.write { sendMessage with
      messageId := complaintAdded, apartmentId := dest }, store)
  else if recvMessage.messageId = giveMeAComplaint then do
    let (result, apartmentId, remarks, store) ← giveNextComplaint fuel
      sendMessage.apartmentId sendMessage.remarks store
    let messageId :=
      if result = -1 then noMoreComplaints else nextComplaintId
    return (.write ⟨messageId, apartmentId, remarks⟩, store)
  else if recvMessage.messageId = giveComplaint4apt then do
    let source ← cString recvMessage.apartmentId
    let (result, apartmentId, remarks) ← giveComplaint fuel source
      sendMessage.apartmentId sendMessage.remarks store
    let messageId :=
      if result = -1 then noComplaint4thisApt else nextComplaintId
    return (.write ⟨messageId, apartmentId, remarks⟩, store)
  else if recvMessage.messageId = resolveComplaint then do
    let source ← cString recvMessage.apartmentId
    let (result, dest, store) ←
      delComplaint fuel source sendMessage.apartmentId store
    let messageId :=
      if result = -1 then noComplaint4thisApt else complaintDeleted
    return (.write { sendMessage with
      messageId := messageId, apartmentId := dest }, store)
  else if recvMessage.messageId = quit then some (.close, store)
  else some (.ignore, store)

inductive Request where
  | log (apartmentId remarks : ByteString)
  | giveNext
  | give (apartmentId : ByteString)
  | resolve (apartmentId : ByteString)
  | quit
  | unexpected
  deriving DecidableEq

/-- What a message asks for; nothing when an array that is used does not hold
a C string. -/
def Message.request (message : Message) : Option Request :=
  if message.messageId = logComplaint then do
    let apartmentId ← cString message.apartmentId
    let remarks ← cString message.remarks
    return .log apartmentId remarks
  else if message.messageId = giveMeAComplaint then some .giveNext
  else if message.messageId = giveComplaint4apt then
    (cString message.apartmentId).map .give
  else if message.messageId = resolveComplaint then
    (cString message.apartmentId).map .resolve
  else if message.messageId = ComplaintQueue.quit then some .quit
  else some .unexpected

inductive Answer where
  | added (apartmentId : ByteString)
  | complaint (apartmentId remarks : ByteString)
  | noMore
  | noneFor (apartmentId : ByteString)
  | deleted (apartmentId : ByteString)
  deriving DecidableEq

/-- A text in an array, with zeros behind it. -/
def field (size : ℕ) (text : ByteString) : ByteString :=
  text ++ List.replicate (size - text.length) 0

def Answer.message : Answer → Message
  | .added apartmentId =>
      ⟨complaintAdded, field apartmentSize apartmentId, field remarksSize []⟩
  | .complaint apartmentId remarks =>
      ⟨nextComplaintId, field apartmentSize apartmentId,
        field remarksSize remarks⟩
  | .noMore =>
      ⟨noMoreComplaints, field apartmentSize [], field remarksSize []⟩
  | .noneFor apartmentId =>
      ⟨noComplaint4thisApt, field apartmentSize apartmentId,
        field remarksSize []⟩
  | .deleted apartmentId =>
      ⟨complaintDeleted, field apartmentSize apartmentId,
        field remarksSize []⟩

/-- What a request does to a list of complaints. -/
def perform (complaints : List Complaint) :
    Request → Effect Answer × List Complaint
  | .log apartmentId remarks =>
      (.write (.added apartmentId),
        complaints ++ [⟨apartmentId, remarks, false⟩])
  | .giveNext =>
      match nextComplaint complaints with
      | none => (.write .noMore, complaints)
      | some (complaint, rest) =>
          (.write (.complaint complaint.apartmentId complaint.remarks), rest)
  | .give apartmentId =>
      match complaints.find? (IsFor apartmentId) with
      | none => (.write (.noneFor apartmentId), complaints)
      | some complaint =>
          (.write (.complaint apartmentId complaint.remarks), complaints)
  | .resolve apartmentId =>
      match complaints.find? (IsFor apartmentId) with
      | none => (.write (.noneFor apartmentId), complaints)
      | some _ => (.write (.deleted apartmentId),
          complaints.eraseP (IsFor apartmentId))
  | .quit => (.close, complaints)
  | .unexpected => (.ignore, complaints)

def Effect.map {Reply Other : Type} (translate : Reply → Other) :
    Effect Reply → Effect Other
  | .write reply => .write (translate reply)
  | .close => .close
  | .ignore => .ignore

/-- What a message does to a list of complaints. -/
def answer (complaints : List Complaint) (message : Message) :
    Effect Message × List Complaint :=
  match message.request with
  | none => (.ignore, complaints)
  | some request =>
      let performed := perform complaints request
      (performed.1.map Answer.message, performed.2)

/-! ## The texts in a message -/

/-- A complaint that fits into the arrays of a message. -/
def Complaint.Fits (complaint : Complaint) : Prop :=
  complaint.apartmentId.length < apartmentSize ∧
    complaint.remarks.length < remarksSize

/-- The arrays of a message have their sizes. -/
def Message.Sized (message : Message) : Prop :=
  message.apartmentId.length = apartmentSize ∧
    message.remarks.length = remarksSize

theorem sized_received (bytes : ByteString) :
    (Message.received bytes).Sized := by
  constructor <;>
  · simp [Message.received, messageSize, apartmentSize, remarksSize]
    omega

theorem int32_bytes (value : BitVec 32) :
    int32 [value.toNat.toUInt8, (value.toNat / 256).toUInt8,
      (value.toNat / 65536).toUInt8, (value.toNat / 16777216).toUInt8] =
        value := by
  have hvalue := value.isLt
  apply BitVec.eq_of_toNat_eq
  simp only [int32, List.foldr_cons, List.foldr_nil, BitVec.toNat_ofNat,
    Nat.toUInt8_eq, UInt8.toNat_ofNat']
  omega

/-- A message that is read as a whole is the one that was written. -/
theorem received_bytes {message : Message} (hsized : message.Sized) :
    Message.received message.bytes = message := by
  obtain ⟨hapartment, hremarks⟩ := hsized
  have hlength : message.bytes.length = messageSize := by
    simp [Message.bytes, hapartment, hremarks, messageSize]
    omega
  obtain ⟨messageId, apartmentId, remarks⟩ := message
  have hbody : (Message.bytes ⟨messageId, apartmentId, remarks⟩).drop 4 =
      apartmentId ++ remarks := rfl
  rw [Message.received, hlength, Nat.sub_self, List.replicate_zero,
    List.append_nil, ← List.drop_drop, hbody, List.take_left' hapartment,
    List.drop_left' hapartment, List.take_of_length_le hremarks.le]
  congr 1
  exact int32_bytes messageId

theorem strcpy_zeros {size : ℕ} {text : ByteString}
    (htext : text.length < size) :
    strcpy (List.replicate size 0) text = some (field size text) := by
  have hsize : size - text.length = size - (text.length + 1) + 1 := by omega
  rw [strcpy, List.length_replicate, if_pos htext, List.drop_replicate, field,
    hsize, List.replicate_succ]

theorem length_lt_of_cString {array text : ByteString}
    (htext : cString array = some text) : text.length < array.length := by
  rw [cString] at htext
  split at htext
  · next hzero =>
      obtain rfl := Option.some.inj htext
      apply lt_of_le_of_ne (List.takeWhile_prefix _).length_le
      intro heq
      have hall := (List.takeWhile_prefix _).eq_of_length heq
      rw [List.takeWhile_eq_self_iff] at hall
      simpa using hall 0 hzero
  · contradiction

def Complaint.texts (complaint : Complaint) : ByteString × ByteString :=
  (complaint.apartmentId, complaint.remarks)

/-- Giving out a complaint changes marks only. -/
theorem texts_nextComplaint {list rest : List Complaint}
    {complaint : Complaint}
    (hnext : nextComplaint list = some (complaint, rest)) :
    rest.map Complaint.texts = list.map Complaint.texts ∧
      complaint.texts ∈ list.map Complaint.texts := by
  by_cases hall : ∀ other ∈ list, other.accessed = true
  · cases list with
    | nil => contradiction
    | cons head right =>
        obtain ⟨rfl, rfl⟩ := Prod.mk.inj (Option.some.inj
          (hnext.symm.trans (nextComplaint_of_all hall)))
        constructor
        · rw [List.map_cons, List.map_cons, List.map_map]
          rfl
        · exact List.mem_cons_self
  · obtain ⟨left, first, right, rfl, hleft, hfirst⟩ := exists_first hall
    obtain ⟨rfl, rfl⟩ := Prod.mk.inj (Option.some.inj (hnext.symm.trans
      (nextComplaint_append hleft (Bool.eq_false_of_not_eq_true hfirst))))
    constructor
    · rw [List.map_append, List.map_append, List.map_cons, List.map_cons]
      rfl
    · exact List.mem_map_of_mem (by simp)

theorem nextComplaint_eq_none_iff {list : List Complaint} :
    nextComplaint list = none ↔ list = [] := by
  constructor
  · intro hnone
    by_cases hall : ∀ other ∈ list, other.accessed = true
    · cases list with
      | nil => rfl
      | cons head right =>
          rw [nextComplaint_of_all hall] at hnone
          contradiction
    · obtain ⟨left, first, right, rfl, hleft, hfirst⟩ := exists_first hall
      rw [nextComplaint_append hleft
        (Bool.eq_false_of_not_eq_true hfirst)] at hnone
      contradiction
  · rintro rfl
    rfl

theorem forall_fits_iff {list : List Complaint} :
    (∀ complaint ∈ list, complaint.Fits) ↔
      ∀ texts ∈ list.map Complaint.texts,
        texts.1.length < apartmentSize ∧ texts.2.length < remarksSize := by
  rw [List.forall_mem_map]
  rfl

/-- What the server is given: where `malloc` finds room for a complaint, and
the bytes that a `read` delivers. -/
structure Receipt (Addr : Type) where
  blocks : Blocks Addr
  bytes : ByteString

def Receipt.message {Addr : Type} (receipt : Receipt Addr) : Message :=
  Message.received receipt.bytes

/-- The arrays of the message that are used hold C strings, and a complaint
that is to be added gets free blocks. -/
def Receipt.Sound {Addr : Type} (store : Store Addr)
    (receipt : Receipt Addr) : Prop :=
  receipt.message.request.isSome ∧
    (receipt.message.messageId = logComplaint → receipt.blocks.Free store)

section Answers

variable {Addr : Type} [DecidableEq Addr] {store : Store Addr}
  {list : List Complaint} {message : Message} {fresh : Blocks Addr}
  {source remarks : ByteString}

/-- The heap holds the list of complaints. -/
def Represents (store : Store Addr) (list : List Complaint) : Prop :=
  ∃ entries, Holds store entries ∧ complaints entries = list ∧
    ∀ complaint ∈ list, complaint.Fits

omit [DecidableEq Addr] in
theorem represents_empty : Represents (Store.empty Addr) [] :=
  ⟨[], holds_empty, rfl, by simp⟩

/-- `LOG_COMPLAINT` -/
theorem serve_log (hstore : Represents store list) (hfree : fresh.Free store)
    (hid : message.messageId = logComplaint) (hsized : message.Sized)
    (hsource : cString message.apartmentId = some source)
    (hremarks : cString message.remarks = some remarks) :
    ∃ next, Returns (serve · store fresh message)
        (.write (Answer.added source).message, next) ∧
      Represents next (list ++ [⟨source, remarks, false⟩]) := by
  obtain ⟨entries, hholds, rfl, hfits⟩ := hstore
  have hshort : source.length < apartmentSize :=
    hsized.1 ▸ length_lt_of_cString hsource
  have hshortRemarks : remarks.length < remarksSize :=
    hsized.2 ▸ length_lt_of_cString hremarks
  obtain ⟨next, hadd, hnext⟩ := hholds.addToComplaintQ hfree remarks
    (strcpy_zeros hshort)
  refine ⟨next, ⟨0, fun fuel _ => ?_⟩, _, hnext, ?_, ?_⟩
  · simp [serve, hid, hsource, hremarks, Message.zero, hadd, Answer.message,
      field]
  · simp [complaints, Blocks.entry]
  · intro complaint hmem
    rcases List.mem_append.mp hmem with hold | hlast
    · exact hfits complaint hold
    · rw [List.mem_singleton.mp hlast]
      exact ⟨hshort, hshortRemarks⟩

/-- `GIVE_ME_A_COMPLAINT` -/
theorem serve_giveNext (hstore : Represents store list)
    (hid : message.messageId = giveMeAComplaint) :
    ∃ next, Returns (serve · store fresh message)
        ((perform list .giveNext).1.map Answer.message, next) ∧
      Represents next (perform list .giveNext).2 := by
  obtain ⟨entries, hholds, rfl, hfits⟩ := hstore
  cases hnext : nextComplaint (complaints entries) with
  | none =>
      have hnil := nextComplaint_eq_none_iff.mp hnext
      obtain rfl := List.map_eq_nil_iff.mp hnil
      obtain ⟨bound, hbound⟩ := hholds.giveNextComplaint_nil
        (List.replicate apartmentSize 0) (List.replicate remarksSize 0)
      refine ⟨store, ⟨bound, fun fuel hfuel => ?_⟩, [], hholds, rfl, hfits⟩
      simp [serve, hid, logComplaint, giveMeAComplaint, hbound fuel hfuel,
        perform, hnext, Effect.map, Answer.message, Message.zero, field]
  | some taken =>
      obtain ⟨complaint, rest⟩ := taken
      obtain ⟨htexts, hmem⟩ := texts_nextComplaint hnext
      have hfits := forall_fits_iff.mp hfits
      obtain ⟨hshort, hshortRemarks⟩ := hfits _ hmem
      obtain ⟨next, following, ⟨bound, hbound⟩, hholds, rfl⟩ :=
        hholds.giveNextComplaint hnext (strcpy_zeros hshort)
          (strcpy_zeros hshortRemarks)
      refine ⟨next, ⟨bound, fun fuel hfuel => ?_⟩, following, hholds, ?_, ?_⟩
      · simp [serve, hid, logComplaint, giveMeAComplaint, Message.zero,
          hbound fuel hfuel, perform, hnext, Effect.map, Answer.message]
      · simp [perform, hnext]
      · rw [forall_fits_iff]
        simp only [perform, hnext]
        rw [htexts]
        exact hfits

/-- `GIVE_COMPLAINT4APT` -/
theorem serve_give (hstore : Represents store list)
    (hid : message.messageId = giveComplaint4apt) (hsized : message.Sized)
    (hsource : cString message.apartmentId = some source) :
    Returns (serve · store fresh message)
      ((perform list (.give source)).1.map Answer.message, store) := by
  obtain ⟨entries, hholds, rfl, hfits⟩ := hstore
  have hcopied := strcpy_zeros (hsized.1 ▸ length_lt_of_cString hsource)
  cases hfind : (complaints entries).find? (IsFor source) with
  | none =>
      obtain ⟨bound, hbound⟩ := hholds.giveComplaint_none hcopied hfind
        (List.replicate remarksSize 0)
      refine ⟨bound, fun fuel hfuel => ?_⟩
      simp [serve, hid, logComplaint, giveMeAComplaint, giveComplaint4apt,
        hsource, Message.zero, hbound fuel hfuel, perform, hfind, Effect.map,
        Answer.message, field]
  | some complaint =>
      have hshort := (hfits complaint (List.mem_of_find?_eq_some hfind)).2
      obtain ⟨bound, hbound⟩ := hholds.giveComplaint hcopied hfind
        (strcpy_zeros hshort)
      refine ⟨bound, fun fuel hfuel => ?_⟩
      simp [serve, hid, logComplaint, giveMeAComplaint, giveComplaint4apt,
        hsource, Message.zero, hbound fuel hfuel, perform, hfind, Effect.map,
        Answer.message]

/-- `RESOLVE_COMPLAINT` -/
theorem serve_resolve (hstore : Represents store list)
    (hid : message.messageId = resolveComplaint) (hsized : message.Sized)
    (hsource : cString message.apartmentId = some source) :
    ∃ next, Returns (serve · store fresh message)
        ((perform list (.resolve source)).1.map Answer.message, next) ∧
      Represents next (perform list (.resolve source)).2 := by
  obtain ⟨entries, hholds, rfl, hfits⟩ := hstore
  have hcopied := strcpy_zeros (hsized.1 ▸ length_lt_of_cString hsource)
  cases hfind : (complaints entries).find? (IsFor source) with
  | none =>
      obtain ⟨bound, hbound⟩ := hholds.delComplaint_none hcopied hfind
      refine ⟨store, ⟨bound, fun fuel hfuel => ?_⟩, entries, hholds, ?_, ?_⟩
      · simp [serve, hid, logComplaint, giveMeAComplaint, giveComplaint4apt,
          resolveComplaint, hsource, Message.zero, hbound fuel hfuel, perform,
          hfind, Effect.map, Answer.message, field]
      · simp [perform, hfind]
      · simpa [perform, hfind] using hfits
  | some complaint =>
      obtain ⟨next, following, ⟨bound, hbound⟩, hnext, herased⟩ :=
        hholds.delComplaint hcopied (Option.isSome_of_eq_some hfind)
      refine ⟨next, ⟨bound, fun fuel hfuel => ?_⟩, following, hnext, ?_, ?_⟩
      · simp [serve, hid, logComplaint, giveMeAComplaint, giveComplaint4apt,
          resolveComplaint, hsource, Message.zero, hbound fuel hfuel, perform,
          hfind, Effect.map, Answer.message, field]
      · simp [perform, hfind, herased]
      · intro other hmem
        simp only [perform, hfind] at hmem
        exact hfits other (List.mem_of_mem_eraseP hmem)

/-- One message is answered as the list of complaints says. -/
theorem serve_represents (hstore : Represents store list)
    {receipt : Receipt Addr} (hsound : receipt.Sound store) :
    ∃ next, Returns (serve · store receipt.blocks receipt.message)
        ((answer list receipt.message).1, next) ∧
      Represents next (answer list receipt.message).2 := by
  obtain ⟨hsome, hfree⟩ := hsound
  have hsized : receipt.message.Sized := sized_received receipt.bytes
  obtain ⟨request, hrequest⟩ := Option.isSome_iff_exists.mp hsome
  simp only [answer, hrequest]
  rw [Message.request] at hrequest
  split_ifs at hrequest with hlog hnext hgive hresolve hquit
  · obtain ⟨source, hsource, hrest⟩ := Option.bind_eq_some_iff.mp hrequest
    obtain ⟨remarks, hremarks, hpair⟩ := Option.bind_eq_some_iff.mp hrest
    obtain rfl := Option.some.inj hpair
    exact serve_log hstore (hfree hlog) hlog hsized hsource hremarks
  · obtain rfl := Option.some.inj hrequest
    exact serve_giveNext hstore hnext
  · obtain ⟨source, hsource, rfl⟩ := Option.map_eq_some_iff.mp hrequest
    have hkept : (perform list (.give source)).2 = list := by
      rw [perform]
      split <;> rfl
    refine ⟨store, serve_give hstore hgive hsized hsource, ?_⟩
    rwa [hkept]
  · obtain ⟨source, hsource, rfl⟩ := Option.map_eq_some_iff.mp hrequest
    exact serve_resolve hstore hresolve hsized hsource
  · obtain rfl := Option.some.inj hrequest
    refine ⟨store, ⟨0, fun fuel _ => ?_⟩, hstore⟩
    simp [serve, hquit, quit, logComplaint, giveMeAComplaint,
      giveComplaint4apt, resolveComplaint, perform, Effect.map]
  · obtain rfl := Option.some.inj hrequest
    refine ⟨store, ⟨0, fun fuel _ => ?_⟩, hstore⟩
    simp [serve, hlog, hnext, hgive, hresolve, hquit, perform, Effect.map]

end Answers

section Runs

variable {Addr : Type} [DecidableEq Addr]

/-- The server and the receipts of its `read` calls. -/
def receive (fuel : ℕ) (store : Store Addr) (receipt : Receipt Addr) :
    Option (Effect Message × Store Addr) :=
  serve fuel store receipt.blocks receipt.message

/-- For any messages, of any clients and in any order, the answers are those
for the list of complaints.  Nothing faults, every loop ends, and the heap then
holds what belongs to the complaints in the list and nothing else. -/
theorem answers_of_messages {receipts : List (Receipt Addr)}
    (hreceipts : Permitted receive Receipt.Sound (Store.empty Addr)
      receipts) :
    ∃ final entries,
      Returns (fun fuel =>
          checkedTrace (receive fuel) (Store.empty Addr) receipts)
        ((trace answer [] (receipts.map Receipt.message)).1, final) ∧
      Holds final entries ∧
      complaints entries =
        (trace answer [] (receipts.map Receipt.message)).2 := by
  have hstep : ∀ store list (receipt : Receipt Addr),
      Represents store list → receipt.Sound store →
      ∃ next, Returns (receive · store receipt)
          ((answer list receipt.message).1, next) ∧
        Represents next (answer list receipt.message).2 :=
    fun _ _ _ hstore hsound => serve_represents hstore hsound
  obtain ⟨final, hreturns, entries, hholds, hcomplaints, -⟩ :=
    returns_checkedTrace _ hstep represents_empty hreceipts
  rw [trace_map]
  exact ⟨final, entries, hreturns, hholds, hcomplaints⟩

/-- A complaint is logged and given out. -/
theorem answers_of_messages_log_give :
    ∃ (receipts : List (Receipt ℕ)) (final : Store ℕ),
      Returns (fun fuel =>
          checkedTrace (receive fuel) (Store.empty ℕ) receipts)
        ([.write (Answer.added (ascii "1A")).message,
          .write (Answer.complaint (ascii "1A") (ascii "leak")).message],
          final) := by
  have hreceipts : Permitted receive Receipt.Sound (Store.empty ℕ)
      [⟨⟨0, 0, 1⟩, Message.bytes ⟨logComplaint,
          field apartmentSize (ascii "1A"), field remarksSize (ascii "leak")⟩⟩,
        ⟨⟨0, 0, 1⟩, Message.bytes ⟨giveMeAComplaint,
          field apartmentSize [], field remarksSize []⟩⟩] := by
    refine ⟨⟨by decide, fun _ => ⟨rfl, rfl, rfl, by decide⟩⟩, ?_⟩
    intro _ next _
    exact ⟨⟨by decide, fun hlog => absurd hlog (by decide)⟩,
      fun _ _ _ => trivial⟩
  obtain ⟨final, -, hreturns, -⟩ := answers_of_messages hreceipts
  exact ⟨_, final, hreturns⟩

end Runs

end KataCpp.ComplaintQueue
