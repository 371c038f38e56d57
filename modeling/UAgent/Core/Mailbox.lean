/-
UAgent/Core/Mailbox.lean

The durable mailbox of a conversation (src/core/mailbox.cc): a folder `new/`
of pending messages and a folder `cur/` of those taken and not yet
acknowledged, each message a file named by its send time, its sender and its
id.

An operation is the list of file operations it performs, in order; a crash in
the middle of it performs a beginning of that list.  A file holds its `Mail`;
what the text of the file looks like matters only for its size.  The names a
folder lists stand in order, as `Messages` sorts them.

`ackMail` finds the files of an id by the end of their names, and
`ackMail_exact_iff_noOtherTail` says when that finds the files of that id and no other.
-/
import UAgent.Base.JsonText
import UAgent.Core.Json
import UAgent.Core.Strings

namespace UAgent

open Bytes

/-! ### Mail -/

/-- `Mail`. -/
structure Mail where
  id : Bytes
  sender : Bytes
  recipient : Bytes
  senderPath : Bytes
  hops : Int
  createdMs : Int
  expiresMs : Int
  body : Json
deriving DecidableEq

def kMailboxPending : Nat := 64
def kMailSenderPerMinute : Nat := 20
def kMailMaxHops : Int := 8
def kMailLifetimeMs : Int := 24 * 60 * 60 * 1000
def kMailBytes : Nat := 64 * 1024

/-- `SanitizeComponent`. -/
def sanitizeComponent (value : Bytes) (cap : Nat) : Bytes :=
  (value.map fun c => if isAlnum c || c = ch '-' || c = ch '_' then c else ch '_').take cap

/-- `SafeFileComponent`. -/
def safeFileComponent (value : Bytes) : Bytes :=
  if value = [] then lit "unnamed" else sanitizeComponent value 80

/-- `ValidId`. -/
def validId (id : Bytes) : Bool := id ≠ [] && safeFileComponent id = id

/-- `MailToJson`. -/
def mailToJson (mail : Mail) : Json :=
  .ofFields [(lit "format", .int 1), (lit "id", .str mail.id), (lit "from", .str mail.sender),
    (lit "to", .str mail.recipient), (lit "sender_path", .str mail.senderPath),
    (lit "hops", .int (Int64.ofInt mail.hops)),
    (lit "created_ms", .int (Int64.ofInt mail.createdMs)),
    (lit "expires_ms", .int (Int64.ofInt mail.expiresMs)), (lit "body", mail.body)]

/-- Whether `MailFromJson` accepts what `MailToJson` wrote. -/
def readable (mail : Mail) : Bool := validId mail.id && mail.body.isObject

/-- The text a mail brings, trimmed as input is. -/
def mailText (mail : Mail) : Bytes := trim (jsonValueStr mail.body (lit "text") [])

/-- A mail is past its time. -/
def expired (mail : Mail) (now : Int) : Bool := mail.expiresMs ≠ 0 && mail.expiresMs < now

/-! ### File names -/

/-- An integer in decimal, zeros before its digits up to `width` characters
(`%0*d`). -/
def zeroPadded (width : Nat) (n : Int) : Bytes :=
  let digits := Json.decimal n.natAbs
  if n < 0 then ch '-' :: (List.replicate (width - 1 - digits.length) (ch '0') ++ digits)
  else List.replicate (width - digits.length) (ch '0') ++ digits

/-- The stamp a message is named by: send time, process and its count. -/
def mailStamp (createdMs pid : Int) (sequence : Nat) : Bytes :=
  zeroPadded 13 createdMs ++ ch '-' :: zeroPadded 10 pid ++ ch '-' ::
    zeroPadded 8 (sequence % 100000000 : Nat)

/-- The stem of a message's file name. -/
def mailStem (stamp id : Bytes) : Bytes := stamp ++ ch '-' :: id

/-- The name of a message's file. -/
def mailFile (stamp id : Bytes) : Bytes := mailStem stamp id ++ lit ".json"

/-- `path.stem()` of a name that ends in ".json". -/
def stem (name : Bytes) : Bytes := name.take (name.length - (lit ".json").length)

@[simp] theorem stem_mailFile (stamp id : Bytes) : stem (mailFile stamp id) = mailStem stamp id := by
  simp [stem, mailFile]

/-! ### The folders -/

/-- A folder: its files by name, in order. -/
abbrev MailFolder := List (Bytes × Mail)

/-- `Messages`: the names that are messages. -/
def messages (folder : MailFolder) : MailFolder :=
  folder.filter fun e => e.1.head? ≠ some (ch '.') && (lit ".json").isSuffixOf e.1

/-- The two folders of a mailbox. -/
structure Mailbox where
  new : MailFolder
  cur : MailFolder
deriving DecidableEq

/-- One file operation on a mailbox. -/
inductive MailOp
  /-- a message is committed into `new/` -/
  | commit (name : Bytes) (mail : Mail)
  /-- an unreadable file leaves `new/` under a name that is no message's -/
  | setAside (name : Bytes)
  /-- an expired file is removed from `new/` -/
  | expire (name : Bytes)
  /-- `new/` to `cur/` -/
  | take (name : Bytes)
  /-- removed from `cur/` -/
  | ack (name : Bytes)
  /-- `cur/` to `new/` -/
  | recover (name : Bytes)
deriving DecidableEq

/-- What a file operation does. -/
def Mailbox.apply (box : Mailbox) : MailOp → Mailbox
  | .commit name mail => { box with new := Assoc.insert name mail box.new }
  | .setAside name | .expire name => { box with new := Assoc.erase name box.new }
  | .take name =>
    match Assoc.lookup name box.new with
    | some mail => ⟨Assoc.erase name box.new, Assoc.insert name mail box.cur⟩
    | none => box
  | .ack name => { box with cur := Assoc.erase name box.cur }
  | .recover name =>
    match Assoc.lookup name box.cur with
    | some mail => ⟨Assoc.insert name mail box.new, Assoc.erase name box.cur⟩
    | none => box

/-- Every message of the mailbox, pending or taken. -/
def Mailbox.files (box : Mailbox) : MailFolder := box.new ++ box.cur

/-! ### Operations -/

/-- `ReadPending`: the readable messages, and the operations that set the
others aside. -/
def readPending (folder : MailFolder) : List MailOp × MailFolder :=
  (((messages folder).filter fun e => !readable e.2).map fun e => .setAside e.1,
    (messages folder).filter fun e => readable e.2)

/-- What `SendMail` learns from its surroundings: the clock, a fresh token,
its process, and whether the sender's rate and the disk allow the send. -/
structure SendContext where
  now : Int
  token : Bytes
  pid : Int
  sequence : Nat
  overRate : Bool
  writeError : Bytes

/-- What became of a send. -/
inductive SendResult
  /-- the reason it was refused for -/
  | refused (reason : Bytes)
  /-- the same message is still waiting -/
  | waiting
  /-- committed under this name -/
  | committed (name : Bytes) (mail : Mail)
deriving DecidableEq

/-- The mail as it is written: named, and with its times filled in. -/
def stamped (mail : Mail) (context : SendContext) : Mail :=
  let id := if mail.id = [] then context.token else mail.id
  let created := if mail.createdMs = 0 then context.now else mail.createdMs
  let expires := if mail.expiresMs = 0 then created + kMailLifetimeMs else mail.expiresMs
  { mail with id := id, createdMs := created, expiresMs := expires }

/-- Whether a pending message is the one being sent.  A sender that names its
mail sends that mail again under the same name; only unnamed mail is told from
a repeat by what it says. -/
def sameMail (named : Bool) (sent pending : Mail) : Bool :=
  if named then pending.id = sent.id
  else pending.sender = sent.sender && pending.body.eqv sent.body

/-- `SendMail`, its result and its file operations. -/
def sendMail [DoubleText] (box : Mailbox) (mail : Mail) (rateLimited : Bool)
    (context : SendContext) : List MailOp × SendResult :=
  if !validId mail.recipient then ([], .refused (lit "unknown recipient " ++ mail.recipient))
  else if mail.hops ≥ kMailMaxHops then
    ([], .refused (lit "not sent: it has been forwarded " ++ Json.decimalInt mail.hops ++
      lit " times, which looks like a loop"))
  else
    let sent := stamped mail context
    if sent.id = [] then ([], .refused (lit "cannot name the message"))
    else if (mailToJson sent).dump.length > kMailBytes then
      ([], .refused (lit "a message holds at most " ++ Json.decimal (kMailBytes / 1024) ++
        lit " KiB"))
    else
      let (aside, pending) := readPending box.new
      if pending.any fun e => sameMail (mail.id ≠ []) sent e.2 then (aside, .waiting)
      else if pending.length ≥ kMailboxPending then
        (aside, .refused (lit "not sent: the recipient has " ++ Json.decimal pending.length ++
          lit " messages waiting; try again after it has read them"))
      else if rateLimited && context.overRate then
        (aside, .refused (lit "not sent: at most " ++ Json.decimal kMailSenderPerMinute ++
          lit " messages a minute; wait before sending more"))
      else if context.writeError ≠ [] then (aside, .refused context.writeError)
      else
        let name := mailFile (mailStamp sent.createdMs context.pid context.sequence) sent.id
        (aside ++ [.commit name sent], .committed name sent)

/-- A message `TakeMail` hands over. -/
def takes (now : Int) (accept : Mail → Bool) (mail : Mail) : Bool :=
  !expired mail now && accept mail

/-- `TakeMail`: the file operations, and the messages taken. -/
def takeMail (box : Mailbox) (now : Int) (accept : Mail → Bool) : List MailOp × List Mail :=
  let (aside, pending) := readPending box.new
  (aside ++ pending.filterMap fun e =>
      if expired e.2 now then some (.expire e.1)
      else if accept e.2 then some (.take e.1)
      else none,
    (pending.map Prod.snd).filter (takes now accept))

/-- Whether `AckMail` takes a file for the message `acked`. -/
def acksFile (acked name : Bytes) : Bool := (ch '-' :: acked).isSuffixOf (stem name)

/-- `AckMail`: removes the taken files of these ids. -/
def ackMail (cur : MailFolder) (ids : List Bytes) : List MailOp :=
  ((messages cur).filter fun e => ids.any fun acked => acksFile acked e.1).map fun e => .ack e.1

/-- `RecoverMail`. -/
def recoverMail (cur : MailFolder) : List MailOp :=
  (messages cur).map fun e => .recover e.1

/-! ### Names and ids -/

/-- A file of `new/` or `cur/` is named by a stamp and its mail's id. -/
def Named (e : Bytes × Mail) : Prop :=
  ∃ stamp, (∀ c ∈ stamp.head?, c ≠ ch '.') ∧ stamp ≠ [] ∧ e.1 = mailFile stamp e.2.id

theorem zeroPadded_ne_nil (width : Nat) (n : Int) : zeroPadded width n ≠ [] := by
  unfold zeroPadded
  split_ifs
  · simp
  · simp [Json.decimal_ne_nil]

/-- A padded integer holds digits, and perhaps a sign. -/
theorem ne_dot_of_mem_zeroPadded {width : Nat} {n : Int} {c : UInt8}
    (h : c ∈ zeroPadded width n) : c ≠ ch '.' := by
  have hdigit : ∀ c ∈ Json.decimal n.natAbs, c ≠ ch '.' := by
    rintro c hc rfl
    exact absurd (Json.digit_of_mem_decimal hc).1 (by decide)
  have hzero : ∀ k, c ∈ List.replicate k (ch '0') → c ≠ ch '.' := fun k hc => by
    rw [List.eq_of_mem_replicate hc]
    decide
  unfold zeroPadded at h
  split_ifs at h
  · simp only [List.mem_cons, List.mem_append] at h
    rcases h with rfl | h | h
    · decide
    · exact hzero _ h
    · exact hdigit c h
  · rcases List.mem_append.mp h with h | h
    · exact hzero _ h
    · exact hdigit c h

/-- The file a send commits is named. -/
theorem named_sent (mail : Mail) (pid : Int) (sequence : Nat) :
    Named (mailFile (mailStamp mail.createdMs pid sequence) mail.id, mail) := by
  refine ⟨mailStamp mail.createdMs pid sequence, fun c hc => ?_, ?_, rfl⟩
  · have hne := zeroPadded_ne_nil 13 mail.createdMs
    rw [mailStamp, List.append_assoc, List.head?_append_of_ne_nil _ hne] at hc
    exact ne_dot_of_mem_zeroPadded (List.mem_of_mem_head? hc)
  · simp [mailStamp, zeroPadded_ne_nil]

/-- A named file is listed. -/
theorem mem_messages {folder : MailFolder} {e : Bytes × Mail} (hn : Named e) :
    e ∈ messages folder ↔ e ∈ folder := by
  obtain ⟨stamp, hdot, hne, hname⟩ := hn
  have hhead : e.1.head? ≠ some (ch '.') := fun h => by
    rw [hname, mailFile, mailStem, List.append_assoc, List.head?_append_of_ne_nil _ hne] at h
    exact hdot _ h rfl
  have hsuffix : lit ".json" <:+ e.1 := hname ▸ List.suffix_append _ _
  simp [messages, hhead, hsuffix]

/-- The files of an id are found. -/
theorem acksFile_of_named {e : Bytes × Mail} (hn : Named e) : acksFile e.2.id e.1 = true := by
  obtain ⟨stamp, -, -, hname⟩ := hn
  rw [acksFile, hname, stem_mailFile, mailStem]
  simp

/-- What is acknowledged: the listed files found under one of the ids. -/
theorem mem_ackMail {cur : MailFolder} {ids : List Bytes} {op : MailOp} :
    op ∈ ackMail cur ids ↔
      ∃ e ∈ messages cur, (∃ acked ∈ ids, acksFile acked e.1 = true) ∧ op = .ack e.1 := by
  simp only [ackMail, List.mem_map, List.mem_filter, List.any_eq_true, and_assoc]
  constructor
  · rintro ⟨e, he, hack, rfl⟩
    exact ⟨e, he, hack, rfl⟩
  · rintro ⟨e, he, hack, rfl⟩
    exact ⟨e, he, hack, rfl⟩

/-- No file of the folder is found under an id of the list without being that
of one: no name ends in '-' and another mail's id. -/
def NoOtherTail (folder : MailFolder) (ids : List Bytes) : Prop :=
  ∀ e ∈ folder, ∀ acked ∈ ids, acksFile acked e.1 = true → e.2.id ∈ ids

instance (folder : MailFolder) (ids : List Bytes) : Decidable (NoOtherTail folder ids) := by
  unfold NoOtherTail; infer_instance

/-- An acknowledgement removes the files of its ids and no other exactly when
no other file's name ends like one of theirs. -/
theorem ackMail_exact_iff_noOtherTail {cur : MailFolder} (hn : ∀ e ∈ cur, Named e)
    (ids : List Bytes) :
    (∀ e ∈ cur, MailOp.ack e.1 ∈ ackMail cur ids ↔ e.2.id ∈ ids) ↔ NoOtherTail cur ids := by
  have hack : ∀ e ∈ cur, MailOp.ack e.1 ∈ ackMail cur ids ↔
      ∃ acked ∈ ids, acksFile acked e.1 = true := by
    intro e he
    rw [mem_ackMail]
    constructor
    · rintro ⟨e', -, hids, heq⟩
      rwa [MailOp.ack.inj heq]
    · exact fun hids => ⟨e, (mem_messages (hn e he)).mpr he, hids, rfl⟩
  constructor
  · intro hexact e he acked hacked htail
    exact (hexact e he).mp ((hack e he).mpr ⟨acked, hacked, htail⟩)
  · intro htail e he
    rw [hack e he]
    constructor
    · rintro ⟨acked, hacked, h⟩
      exact htail e he acked hacked h
    · exact fun hid => ⟨e.2.id, hid, acksFile_of_named (hn e he)⟩

/-! ### What the operations emit -/

/-- Readable messages are all pending: none is set aside. -/
theorem readPending_eq {folder : MailFolder} (hn : ∀ e ∈ folder, Named e)
    (hr : ∀ e ∈ folder, readable e.2 = true) : readPending folder = ([], folder) := by
  have hm : messages folder = folder := by
    refine List.filter_eq_self.mpr fun e he => ?_
    exact (List.mem_filter.mp ((mem_messages (hn e he)).mpr he)).2
  simp only [readPending, hm, Prod.mk.injEq, List.map_eq_nil_iff, List.filter_eq_nil_iff,
    List.filter_eq_self]
  exact ⟨fun e he => by simp [hr e he], hr⟩

/-- A take expires and moves pending messages. -/
theorem mem_takeMail_fst {box : Mailbox} (hn : ∀ e ∈ box.new, Named e)
    (hr : ∀ e ∈ box.new, readable e.2 = true) {now : Int} {accept : Mail → Bool} {op : MailOp}
    (h : op ∈ (takeMail box now accept).1) :
    ∃ e ∈ box.new, (op = .expire e.1 ∧ expired e.2 now = true) ∨ op = .take e.1 := by
  rw [takeMail, readPending_eq hn hr] at h
  simp only [List.nil_append, List.mem_filterMap] at h
  obtain ⟨e, he, h⟩ := h
  refine ⟨e, he, ?_⟩
  split_ifs at h with hexp hacc
  · exact .inl ⟨(Option.some.inj h).symm, hexp⟩
  · exact .inr (Option.some.inj h).symm

/-- Every message taken was moved. -/
theorem mem_takeMail_snd {box : Mailbox} (hn : ∀ e ∈ box.new, Named e)
    (hr : ∀ e ∈ box.new, readable e.2 = true) {now : Int} {accept : Mail → Bool} {mail : Mail}
    (h : mail ∈ (takeMail box now accept).2) :
    ∃ name, (name, mail) ∈ box.new ∧ MailOp.take name ∈ (takeMail box now accept).1 := by
  rw [takeMail, readPending_eq hn hr] at h ⊢
  simp only [List.mem_filter, List.mem_map, takes, Bool.and_eq_true, Bool.not_eq_true'] at h
  obtain ⟨⟨e, he, rfl⟩, hexp, hacc⟩ := h
  refine ⟨e.1, he, ?_⟩
  simp only [List.nil_append, List.mem_filterMap]
  exact ⟨e, he, by simp [hexp, hacc]⟩

end UAgent
