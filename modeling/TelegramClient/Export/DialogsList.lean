import Mathlib

/-! The list of chats that are exported (`export/export_api_wrap.cpp`): slices of dialogs are
requested for each range of messages, from the last range to the first one, and then slices of
left channels. -/

namespace TelegramClient.Export

open Std

abbrev PeerId := UInt64

inductive DialogType where
  | unknown
  | self
  | personal
  | bot
  | privateGroup
  | privateSupergroup
  | publicSupergroup
  | privateChannel
  | publicChannel
  deriving DecidableEq

/-- A dialog or a left channel of an answer. -/
structure Dialog (InputPeer : Type) where
  type : DialogType := .unknown
  input : InputPeer
  topMessageId : Int32 := 0
  topMessageDate : Int32 := 0
  peerId : PeerId := 0
  isLeftChannel : Bool := false

structure DialogInfo (InputPeer : Type) extends Dialog InputPeer where
  splits : List Nat := []
  messagesCountPerSplit : List Nat := []

/-! ### Settings -/

abbrev Types := UInt32

def Types.personalChats : Types := 0x020
def Types.botChats : Types := 0x040
def Types.privateGroups : Types := 0x080
def Types.publicGroups : Types := 0x100
def Types.privateChannels : Types := 0x200
def Types.publicChannels : Types := 0x400

def Types.groupsChannelsMask : Types :=
  privateGroups ||| publicGroups ||| (privateChannels ||| publicChannels)

def Types.nonChannelChatsMask : Types := personalChats ||| botChats ||| privateGroups

def settingsFromDialogsType : DialogType → Types
  | .self => Types.personalChats
  | .personal => Types.personalChats
  | .bot => Types.botChats
  | .privateGroup => Types.privateGroups
  | .privateSupergroup => Types.privateGroups
  | .publicSupergroup => Types.publicGroups
  | .privateChannel => Types.privateChannels
  | .publicChannel => Types.publicChannels
  | .unknown => 0

variable {InputPeer : Type}

/-- The chats of this type are exported. -/
def isChosen (types : Types) (dialog : Dialog InputPeer) : Bool :=
  types &&& settingsFromDialogsType dialog.type ≠ 0

/-! ### The lists -/

/-- The part of a process that both lists have, and the list that it fills. -/
structure ChatsProcess (InputPeer : Type) where
  list : List (DialogInfo InputPeer) := []
  indexByPeer : ExtTreeMap PeerId Nat compare := ∅
  processedCount : Nat := 0

def DialogInfo.addSplit (splitIndex : Nat) (info : DialogInfo InputPeer) : DialogInfo InputPeer :=
  { info with
    splits := info.splits ++ [splitIndex]
    messagesCountPerSplit := info.messagesCountPerSplit ++ [0] }

def appendChat (splitIndex : Nat) (process : ChatsProcess InputPeer) (dialog : Dialog InputPeer) :
    ChatsProcess InputPeer :=
  let nextIndex := process.list.length
  match process.indexByPeer[dialog.peerId]? with
  | some i => { process with list := process.list.modify i (DialogInfo.addSplit splitIndex) }
  | none =>
    { process with
      list := (process.list ++ [({ toDialog := dialog } : DialogInfo InputPeer)]).modify nextIndex
        (DialogInfo.addSplit splitIndex)
      indexByPeer := process.indexByPeer.insert dialog.peerId nextIndex }

def appendChatsSlice (types : Types) (process : ChatsProcess InputPeer)
    (slice : List (Dialog InputPeer)) (splitIndex : Nat) : ChatsProcess InputPeer :=
  (slice.filter (isChosen types)).foldl (appendChat splitIndex) process

/-! ### The requests -/

/-- The dialogs of an answer, and how many folders are among them. -/
inductive DialogsAnswer (InputPeer : Type) where
  | dialogs (chats : List (Dialog InputPeer))
  | dialogsSlice (chats : List (Dialog InputPeer)) (folders : Nat)
  | dialogsNotModified

inductive ChatsAnswer (InputPeer : Type) where
  | chats (list : List (Dialog InputPeer))
  | chatsSlice (count : Nat) (list : List (Dialog InputPeer))

def ChatsAnswer.list : ChatsAnswer InputPeer → List (Dialog InputPeer)
  | .chats list => list
  | .chatsSlice _ list => list

inductive Stage where
  | leftChannelsCount
  | dialogs
  | leftChannels
  | finished
  | stopped
  deriving DecidableEq

/-- Both processes. All slices that have been appended, with their splits, are remembered. -/
structure ApiWrap (InputPeer : Type) where
  types : Types
  splitsCount : Nat
  stage : Stage
  dialogs : ChatsProcess InputPeer := {}
  splitIndexPlusOne : Nat
  offsetDate : Int32 := 0
  offsetId : Int32 := 0
  offsetPeer : Option InputPeer := none
  left : ChatsProcess InputPeer := {}
  offset : Nat := 0
  fullCount : Nat := 0
  isFinished : Bool := false
  dialogsReported : List (Nat × Dialog InputPeer) := []
  leftReported : List (Nat × Dialog InputPeer) := []

/-- There is a range for the last messages at least. -/
def ApiWrap.start (InputPeer : Type) (types : Types) (lastSplit : Nat) : ApiWrap InputPeer where
  types := types
  splitsCount := lastSplit + 1
  stage := if types &&& Types.groupsChannelsMask ≠ 0 then .leftChannelsCount else .dialogs
  splitIndexPlusOne := lastSplit + 1

variable (s : ApiWrap InputPeer)

def ApiWrap.useOnlyLastSplit : Bool := s.types &&& Types.nonChannelChatsMask = 0

def report (splitIndex : Nat) (slice : List (Dialog InputPeer)) : List (Nat × Dialog InputPeer) :=
  slice.map fun dialog => (splitIndex, dialog)

def ApiWrap.appendDialogsSlice (slice : List (Dialog InputPeer)) : ApiWrap InputPeer :=
  let splitIndex := s.splitIndexPlusOne - 1
  { s with
    dialogs := appendChatsSlice s.types s.dialogs slice splitIndex
    dialogsReported := s.dialogsReported ++ report splitIndex slice }

def ApiWrap.appendLeftChannelsSlice (slice : List (Dialog InputPeer)) : ApiWrap InputPeer :=
  let splitIndex := s.splitsCount - 1
  { s with
    left := appendChatsSlice s.types s.left slice splitIndex
    leftReported := s.leftReported ++ report splitIndex slice }

/-- What is requested next. -/
def ApiWrap.nextDialogsSlice (finished : Bool) (last : Option (Dialog InputPeer)) :
    ApiWrap InputPeer :=
  match last.filter fun last => !finished && last.topMessageDate > 0 with
  | some last =>
    { s with
      offsetId := last.topMessageId
      offsetDate := last.topMessageDate
      offsetPeer := some last.input }
  | none =>
    let next := if s.useOnlyLastSplit then s
      else { s with splitIndexPlusOne := s.splitIndexPlusOne - 1 }
    if !s.useOnlyLastSplit && next.splitIndexPlusOne > 0 then
      { next with
        offsetId := 0
        offsetDate := 0
        offsetPeer := none }
    else if s.types &&& Types.groupsChannelsMask ≠ 0 then { next with stage := .leftChannels }
    else { next with stage := .finished }

def ApiWrap.dialogsSliceDone (finished : Bool) (slice : List (Dialog InputPeer)) (proceed : Bool) :
    ApiWrap InputPeer :=
  let counted := { s with
    dialogs := { s.dialogs with processedCount := s.dialogs.processedCount + slice.length } }
  let appended := counted.appendDialogsSlice slice
  if proceed then appended.nextDialogsSlice finished slice.getLast?
  else { appended with stage := .stopped }

def ApiWrap.leftChannelsSliceDone (answer : ChatsAnswer InputPeer) : ApiWrap InputPeer :=
  let appended := s.appendLeftChannelsSlice answer.list
  { appended with
    offset := s.offset + answer.list.length
    fullCount :=
      match answer with
      | .chats list => list.length
      | .chatsSlice count _ => count
    isFinished :=
      match answer with
      | .chats _ => true
      | .chatsSlice _ list => list.isEmpty }

/-- An answer, and whether the progress handler lets the export go on. -/
inductive Answer (InputPeer : Type) where
  | dialogs (answer : DialogsAnswer InputPeer) (proceed : Bool)
  | leftChannels (answer : ChatsAnswer InputPeer) (proceed : Bool)

/-- Each stage waits for the answer to its request. -/
def ApiWrap.receive : Answer InputPeer → Option (ApiWrap InputPeer)
  | .dialogs answer proceed =>
    if s.stage = .dialogs then
      match answer with
      | .dialogs chats => some (s.dialogsSliceDone true chats proceed)
      | .dialogsSlice chats folders =>
        some (s.dialogsSliceDone (chats.isEmpty && folders = 0) chats proceed)
      | .dialogsNotModified => some { s with stage := .stopped }
    else none
  | .leftChannels answer proceed =>
    let received := s.leftChannelsSliceDone answer
    if s.stage = .leftChannelsCount then some { received with stage := .dialogs }
    else if s.stage = .leftChannels then
      if !proceed then some { received with stage := .stopped }
      else if received.isFinished then some { received with stage := .finished }
      else some received
    else none

/-- A run over answers. -/
def ApiWrap.run (answers : List (Answer InputPeer)) : Option (ApiWrap InputPeer) :=
  answers.foldlM ApiWrap.receive s

end TelegramClient.Export
