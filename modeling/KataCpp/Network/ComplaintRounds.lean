import KataCpp.Network.ComplaintServer

/-!
# Every complaint gets its turn

Giving out the next complaint prefers those without a mark, so a complaint that
has one waits until all others have been given out too, new ones included.  How
long it can wait is counted here: unless somebody resolves it, a complaint is
given out before the requests for one exceed twice the number of complaints in
the queue and the number of those that are added meanwhile.
-/

namespace KataCpp.ComplaintQueue

open Bytes Iteration LinkedList TransitionSystem

section Waiting

variable {list before after rest : List Complaint} {complaint : Complaint}
  {texts : ByteString × ByteString} {bound : ℕ}

def unaccessed (list : List Complaint) : ℕ :=
  list.countP fun complaint => !complaint.accessed

/-- How many others can be given out before a complaint is. -/
def wait (before : List Complaint) (complaint : Complaint)
    (after : List Complaint) : ℕ :=
  if complaint.accessed then
    unaccessed before + unaccessed after + before.length
  else unaccessed before

/-- A complaint with some texts is given out after `bound` others. -/
def Waits (list : List Complaint) (texts : ByteString × ByteString)
    (bound : ℕ) : Prop :=
  ∃ before complaint after, list = before ++ complaint :: after ∧
    complaint.texts = texts ∧ wait before complaint after ≤ bound

theorem unaccessed_append (before after : List Complaint) :
    unaccessed (before ++ after) = unaccessed before + unaccessed after :=
  List.countP_append

theorem unaccessed_cons (complaint : Complaint) (after : List Complaint) :
    unaccessed (complaint :: after) =
      unaccessed after + if complaint.accessed then 0 else 1 := by
  cases haccessed : complaint.accessed <;>
    simp [unaccessed, haccessed]

theorem unaccessed_map_false (list : List Complaint) :
    unaccessed (list.map (Complaint.setAccessed false)) = list.length := by
  rw [unaccessed, List.countP_map, List.countP_eq_length]
  intro other _
  rfl

theorem unaccessed_le (list : List Complaint) :
    unaccessed list ≤ list.length :=
  List.countP_le_length

theorem wait_lt (before : List Complaint) (complaint : Complaint)
    (after : List Complaint) :
    wait before complaint after + 1 <
      2 * (before ++ complaint :: after).length := by
  have hbefore := unaccessed_le before
  have hafter := unaccessed_le after
  rw [List.length_append, List.length_cons, wait]
  split <;> omega

/-- A complaint in the queue, and the longest time it can wait there. -/
theorem waits_of_mem (hmem : complaint ∈ list) :
    Waits list complaint.texts (2 * list.length - 2) := by
  obtain ⟨before, after, rfl⟩ := List.append_of_mem hmem
  have hwait := wait_lt before complaint after
  exact ⟨before, complaint, after, rfl, rfl, by omega⟩

/-- A complaint that is given out is one less without a mark. -/
theorem unaccessed_give (left right : List Complaint) {given : Complaint}
    (hgiven : given.accessed = false) :
    unaccessed (left ++ given.setAccessed true :: right) + 1 =
      unaccessed (left ++ given :: right) := by
  simp only [unaccessed_append, unaccessed_cons, hgiven,
    Complaint.setAccessed, if_true, Bool.false_eq_true, if_false]
  omega

/-- All complaints have a mark: the first one is given out. -/
theorem Waits.next_of_all
    (hall : ∀ other ∈ before ++ complaint :: after, other.accessed = true)
    (hbound : wait before complaint after ≤ bound) :
    ∃ given rest,
      nextComplaint (before ++ complaint :: after) = some (given, rest) ∧
        (given.texts = complaint.texts ∨
          0 < bound ∧ Waits rest complaint.texts (bound - 1)) := by
  cases before with
  | nil => exact ⟨_, _, nextComplaint_of_all hall, Or.inl rfl⟩
  | cons head before =>
      have haccessed := hall complaint (by simp)
      rw [wait, haccessed, if_pos rfl, List.length_cons] at hbound
      refine ⟨_, _, nextComplaint_of_all hall, Or.inr ⟨by omega, ?_⟩⟩
      refine ⟨head.setAccessed true ::
        before.map (Complaint.setAccessed false),
        complaint.setAccessed false,
        after.map (Complaint.setAccessed false), ?_, rfl, ?_⟩
      · rw [List.cons_append, ← List.map_cons, ← List.map_append]
        rfl
      · rw [wait, unaccessed_cons, unaccessed_map_false]
        simp only [Complaint.setAccessed, Bool.false_eq_true, if_false,
          if_true]
        omega

/-- The complaint that is given out stands behind the one that waits. -/
theorem Waits.next_behind {left right : List Complaint} {given : Complaint}
    (haccessed : complaint.accessed = true) (hgiven : given.accessed = false)
    (hbound : wait before complaint (left ++ given :: right) ≤ bound) :
    0 < bound ∧ Waits (before ++ complaint :: left ++
      given.setAccessed true :: right) complaint.texts (bound - 1) := by
  have hless := unaccessed_give left right hgiven
  rw [wait, if_pos haccessed] at hbound
  refine ⟨by omega, before, complaint, left ++ given.setAccessed true :: right,
    by simp, rfl, ?_⟩
  rw [wait, if_pos haccessed]
  omega

/-- It stands in front of the one that waits. -/
theorem Waits.next_in_front {left right : List Complaint} {given : Complaint}
    (hgiven : given.accessed = false)
    (hbound : wait (left ++ given :: right) complaint after ≤ bound) :
    0 < bound ∧ Waits (left ++ given.setAccessed true ::
      (right ++ complaint :: after)) complaint.texts (bound - 1) := by
  have hless := unaccessed_give left right hgiven
  have hlength : (left ++ given.setAccessed true :: right).length =
      (left ++ given :: right).length := by simp
  rw [wait] at hbound
  refine ⟨by split at hbound <;> omega,
    left ++ given.setAccessed true :: right, complaint, after, by simp, rfl,
    ?_⟩
  rw [wait]
  split_ifs at hbound ⊢ <;> omega

/-- The next complaint is the one that waits, or it waits for one less. -/
theorem Waits.next (hwaits : Waits list texts bound) :
    ∃ given rest, nextComplaint list = some (given, rest) ∧
      (given.texts = texts ∨ 0 < bound ∧ Waits rest texts (bound - 1)) := by
  obtain ⟨before, complaint, after, rfl, rfl, hbound⟩ := hwaits
  by_cases hall : ∀ other ∈ before ++ complaint :: after,
      other.accessed = true
  · exact Waits.next_of_all hall hbound
  obtain ⟨left, given, right, hsplit, hleft, hgiven⟩ := exists_first hall
  have hgiven := Bool.eq_false_of_not_eq_true hgiven
  rw [hsplit, nextComplaint_append hleft hgiven]
  refine ⟨_, _, rfl, ?_⟩
  rcases List.append_eq_append_iff.mp hsplit with
    ⟨between, rfl, hbehind⟩ | ⟨between, rfl, hfront⟩
  · cases between with
    | nil =>
        obtain ⟨rfl, -⟩ := List.cons_eq_cons.mp hbehind
        exact Or.inl rfl
    | cons head between =>
        obtain ⟨rfl, rfl⟩ := List.cons_eq_cons.mp hbehind
        exact Or.inr (Waits.next_behind (hleft complaint (by simp)) hgiven
          hbound)
  · cases between with
    | nil =>
        obtain ⟨rfl, -⟩ := List.cons_eq_cons.mp hfront
        exact Or.inl rfl
    | cons head between =>
        obtain ⟨rfl, rfl⟩ := List.cons_eq_cons.mp hfront
        exact Or.inr (Waits.next_in_front hgiven hbound)

/-- A new complaint can be given out before one that has a mark. -/
theorem Waits.log (hwaits : Waits list texts bound) (added : Complaint) :
    Waits (list ++ [added]) texts (bound + 1) := by
  obtain ⟨before, complaint, after, rfl, rfl, hbound⟩ := hwaits
  refine ⟨before, complaint, after ++ [added], by simp, rfl, ?_⟩
  have hadded := unaccessed_le [added]
  rw [List.length_singleton] at hadded
  rw [wait] at hbound ⊢
  rw [unaccessed_append]
  split_ifs at hbound ⊢ <;> omega

theorem unaccessed_eraseP_le (property : Complaint → Bool)
    (list : List Complaint) :
    unaccessed (list.eraseP property) ≤ unaccessed list :=
  List.eraseP_sublist.countP_le

/-- That another complaint is resolved makes no one wait longer. -/
theorem Waits.eraseP {property : Complaint → Bool}
    (hwaits : Waits list texts bound)
    (hkept : ∀ complaint : Complaint, complaint.texts = texts →
      property complaint = false) :
    Waits (list.eraseP property) texts bound := by
  obtain ⟨before, complaint, after, rfl, rfl, hbound⟩ := hwaits
  have hcomplaint := hkept complaint rfl
  have hafter := unaccessed_eraseP_le property after
  have hbefore := unaccessed_eraseP_le property before
  have hlength := (List.eraseP_sublist (p := property) (l := before)).length_le
  rw [List.eraseP_append]
  split
  · refine ⟨before.eraseP property, complaint, after, rfl, rfl, ?_⟩
    rw [wait] at hbound ⊢
    split_ifs at hbound ⊢ <;> omega
  · rw [List.eraseP_cons_of_neg (by simp [hcomplaint])]
    refine ⟨before, complaint, after.eraseP property, rfl, rfl, ?_⟩
    rw [wait] at hbound ⊢
    split_ifs at hbound ⊢ <;> omega

end Waiting

def gives (messages : List Message) : ℕ :=
  messages.countP fun message => message.messageId = giveMeAComplaint

def logs (messages : List Message) : ℕ :=
  messages.countP fun message => message.messageId = logComplaint

section Runs

variable {list : List Complaint} {texts : ByteString × ByteString}
  {bound : ℕ} {message : Message}

theorem Waits.mono (hwaits : Waits list texts bound) {larger : ℕ}
    (hlarger : bound ≤ larger) : Waits list texts larger := by
  obtain ⟨before, complaint, after, hlist, htexts, hbound⟩ := hwaits
  exact ⟨before, complaint, after, hlist, htexts, hbound.trans hlarger⟩

theorem answer_giveNext (hid : message.messageId = giveMeAComplaint) :
    answer list message = ((perform list .giveNext).1.map Answer.message,
      (perform list .giveNext).2) := by
  have hrequest : message.request = some .giveNext := by
    rw [Message.request, hid]
    rfl
  rw [answer, hrequest]

/-- A request for the next complaint gives out the one that waits, or shortens
its waiting time. -/
theorem Waits.answer_give (hwaits : Waits list texts bound)
    (hid : message.messageId = giveMeAComplaint) :
    (answer list message).1 =
        .write (Answer.complaint texts.1 texts.2).message ∨
      0 < bound ∧ Waits (answer list message).2 texts (bound - 1) := by
  obtain ⟨given, rest, hnext, hcases⟩ := hwaits.next
  simp only [answer_giveNext hid, perform, hnext]
  rcases hcases with hgiven | hwaits
  · left
    rw [← hgiven]
    rfl
  · exact Or.inr hwaits

theorem messageId_of_log {apartmentId remarks : ByteString}
    (hrequest : message.request = some (.log apartmentId remarks)) :
    message.messageId = logComplaint := by
  by_contra hlog
  rw [Message.request, if_neg hlog] at hrequest
  split_ifs at hrequest <;> simp at hrequest

theorem messageId_of_giveNext (hrequest : message.request = some .giveNext) :
    message.messageId = giveMeAComplaint := by
  by_contra hgive
  rw [Message.request, if_neg hgive] at hrequest
  split_ifs at hrequest <;> simp [Option.bind_eq_some_iff] at hrequest

/-- Other messages do not, and only a new complaint makes it longer. -/
theorem Waits.answer_other (hwaits : Waits list texts bound)
    (hid : message.messageId ≠ giveMeAComplaint)
    (hresolve : message.request ≠ some (.resolve texts.1)) :
    Waits (answer list message).2 texts
      (bound + if message.messageId = logComplaint then 1 else 0) := by
  have hlater := hwaits.mono (Nat.le_add_right bound
    (if message.messageId = logComplaint then 1 else 0))
  cases hrequest : message.request with
  | none =>
      rw [answer, hrequest]
      exact hlater
  | some request =>
      rw [answer, hrequest]
      cases request with
      | log apartmentId remarks =>
          rw [if_pos (messageId_of_log hrequest)]
          exact hwaits.log _
      | giveNext => exact absurd (messageId_of_giveNext hrequest) hid
      | give apartmentId =>
          dsimp only [perform]
          split <;> exact hlater
      | resolve apartmentId =>
          have hne : apartmentId ≠ texts.1 := by
            rintro rfl
            exact hresolve hrequest
          dsimp only [perform]
          split
          · exact hlater
          · apply hlater.eraseP
            rintro complaint rfl
            exact decide_eq_false hne
      | quit => exact hlater
      | unexpected => exact hlater

/-- A complaint that no one resolves is given out before the requests for the
next one exceed its waiting time and the number of new complaints. -/
theorem Waits.given {messages : List Message}
    (hwaits : Waits list texts bound)
    (hresolve : ∀ message ∈ messages,
      message.request ≠ some (.resolve texts.1))
    (hgives : bound + logs messages < gives messages) :
    Effect.write (Answer.complaint texts.1 texts.2).message ∈
      (trace answer list messages).1 := by
  induction messages generalizing list bound with
  | nil => simp [gives] at hgives
  | cons message messages ih =>
      have hrest := fun other hmem =>
        hresolve other (List.mem_cons_of_mem message hmem)
      rw [gives, logs, List.countP_cons, List.countP_cons, ← gives,
        ← logs] at hgives
      simp only [decide_eq_true_eq] at hgives
      by_cases hid : message.messageId = giveMeAComplaint
      · have hlog : message.messageId ≠ logComplaint := by
          rw [hid]
          decide
        rw [if_pos hid, if_neg hlog] at hgives
        rcases hwaits.answer_give hid with hgiven | ⟨hpos, hnext⟩
        · rw [trace, hgiven]
          exact List.mem_cons_self
        · exact List.mem_cons_of_mem _ (ih hnext hrest (by omega))
      · rw [if_neg hid] at hgives
        have hnext := hwaits.answer_other hid
          (hresolve message List.mem_cons_self)
        exact List.mem_cons_of_mem _ (ih hnext hrest (by omega))

variable {Addr : Type} [DecidableEq Addr]

/-- Whatever happened before, a complaint in the queue that no one resolves is
written to a client before the requests for the next complaint reach twice the
number of complaints in the queue and the number of those that are added. -/
theorem complaint_given {done rest : List (Receipt Addr)}
    {complaint : Complaint}
    (hreceipts : Permitted receive Receipt.Sound (Store.empty Addr)
      (done ++ rest))
    (hcomplaint : complaint ∈
      (trace answer [] (done.map Receipt.message)).2)
    (hresolve : ∀ receipt ∈ rest,
      receipt.message.request ≠ some (.resolve complaint.apartmentId))
    (hgives : 2 * (trace answer [] (done.map Receipt.message)).2.length +
        logs (rest.map Receipt.message) ≤
      gives (rest.map Receipt.message) + 1) :
    ∃ first second final,
      Returns (fun fuel =>
          checkedTrace (receive fuel) (Store.empty Addr) (done ++ rest))
        (first ++ second, final) ∧
      first.length = done.length ∧
      .write (Answer.complaint complaint.apartmentId
        complaint.remarks).message ∈ second := by
  obtain ⟨final, -, hreturns, -⟩ := answers_of_messages hreceipts
  rw [List.map_append, trace_append] at hreturns
  refine ⟨_, _, final, hreturns, ?_, ?_⟩
  · rw [length_trace, List.length_map]
  · have hlength := List.length_pos_of_mem hcomplaint
    exact (waits_of_mem hcomplaint).given
      (List.forall_mem_map.mpr hresolve) (by omega)

def logReceipt (blocks : Blocks ℕ) (apartmentId remarks : ByteString) :
    Receipt ℕ where
  blocks := blocks
  bytes := Message.bytes ⟨logComplaint, field apartmentSize apartmentId,
    field remarksSize remarks⟩

def giveReceipt : Receipt ℕ where
  blocks := ⟨0, 0, 1⟩
  bytes := Message.bytes ⟨giveMeAComplaint, field apartmentSize [],
    field remarksSize []⟩

/-- Two complaints are in the queue, a third one is added, and the second one
is among the next four that are given out. -/
theorem complaint_given_three :
    ∃ (first second : List (Effect Message)) (final : Store ℕ),
      Returns (fun fuel => checkedTrace (receive fuel) (Store.empty ℕ)
          ([logReceipt ⟨0, 0, 1⟩ (ascii "1A") (ascii "leak"),
              logReceipt ⟨1, 2, 3⟩ (ascii "2B") (ascii "noise")] ++
            [logReceipt ⟨2, 4, 5⟩ (ascii "3C") (ascii "dust"),
              giveReceipt, giveReceipt, giveReceipt, giveReceipt]))
        (first ++ second, final) ∧
      first.length = 2 ∧
      .write (Answer.complaint (ascii "2B") (ascii "noise")).message ∈
        second := by
  have hgive : ∀ store : Store ℕ, giveReceipt.Sound store := fun store =>
    ⟨by decide, fun hlog => absurd hlog (by decide)⟩
  have hreceipts : Permitted receive Receipt.Sound (Store.empty ℕ)
      ([logReceipt ⟨0, 0, 1⟩ (ascii "1A") (ascii "leak"),
          logReceipt ⟨1, 2, 3⟩ (ascii "2B") (ascii "noise")] ++
        [logReceipt ⟨2, 4, 5⟩ (ascii "3C") (ascii "dust"),
          giveReceipt, giveReceipt, giveReceipt, giveReceipt]) := by
    refine permitted_cons ⟨by decide, fun _ => ⟨rfl, rfl, rfl, by decide⟩⟩
      ⟨0, fun _ _ => rfl⟩ ?_
    refine permitted_cons ⟨by decide, fun _ => ⟨rfl, rfl, rfl, by decide⟩⟩
      ⟨0, fun _ _ => rfl⟩ ?_
    refine ⟨⟨by decide, fun _ => ⟨rfl, rfl, rfl, by decide⟩⟩, ?_⟩
    intro _ _ _
    refine ⟨hgive _, fun _ _ _ => ⟨hgive _, fun _ _ _ => ?_⟩⟩
    exact ⟨hgive _, fun _ _ _ => ⟨hgive _, fun _ _ _ => trivial⟩⟩
  have hcomplaint : (⟨ascii "2B", ascii "noise", false⟩ : Complaint) ∈
      [⟨ascii "1A", ascii "leak", false⟩,
        ⟨ascii "2B", ascii "noise", false⟩] := by simp
  exact complaint_given hreceipts hcomplaint (by decide) (by decide)

end Runs

end KataCpp.ComplaintQueue
