import TelegramClient.Data.SharedMedia

/-! A page of messages that are searched for, and what is known after it
(`data/data_search_controller.cpp`). -/

namespace TelegramClient.Data

inductive LoadDirection where
  | around
  | before
  | after
  deriving DecidableEq

inductive MessagesFilter where
  | empty
  | photos
  | video
  | photoVideo
  | music
  | document
  | voice
  | roundVoice
  | roundVideo
  | gif
  | url
  | chatPhotos

structure SearchRequest where
  query : String
  filter : MessagesFilter
  offsetId : Int
  addOffset : Int
  limit : Int
  maxId : Int := 0
  minId : Int := 0
  hash : Int := 0

def kSharedMediaLimit : Int := 100

/-- No type is `kCount`. -/
def messagesFilter : Option SharedMediaType → MessagesFilter
  | some .photo => .photos
  | some .video => .video
  | some .photoVideo => .photoVideo
  | some .musicFile => .music
  | some .file => .document
  | some .voiceFile => .voice
  | some .roundVoiceFile => .roundVoice
  | some .roundFile => .roundVideo
  | some .gif => .gif
  | some .link => .url
  | some .chatPhoto => .chatPhotos
  | none => .empty

def prepareSearchRequest (type : Option SharedMediaType) (query : String) (messageId : Int)
    (direction : LoadDirection) : SearchRequest :=
  let limit := if messageId ≠ 0 then kSharedMediaLimit else 0
  { query
    filter := messagesFilter type
    offsetId :=
      match direction with
      | .before | .around => messageId
      | .after => messageId + 1
    addOffset :=
      match direction with
      | .before => 0
      | .around => -limit / 2
      | .after => -limit
    limit }

structure SearchResult where
  messageIds : List Int := []
  noSkipRange : MsgRange
  fullCount : Int := 0

/-- The answers, with the ids of their messages. -/
inductive Messages where
  | messages (ids : List Int)
  | messagesSlice (count : Int) (ids : List Int)
  | channelMessages (count : Int) (ids : List Int)
  | messagesNotModified

def Messages.ids : Messages → Option (List Int)
  | .messages ids | .messagesSlice _ ids | .channelMessages _ ids => some ids
  | .messagesNotModified => none

def Messages.fullCount : Messages → Int
  | .messages ids => ids.length
  | .messagesSlice count _ | .channelMessages count _ => count
  | .messagesNotModified => 0

/-- Whether a message can be added to its history, and the types that it has. -/
structure HistoryItems where
  added : Int → Bool
  sharedMediaTypes : Int → SharedMediaType → Bool

def HistoryItems.hasType (items : HistoryItems) (type : Option SharedMediaType) (id : Int) : Bool :=
  type.elim true (items.sharedMediaTypes id)

/-- The messages that are put into the list. -/
def HistoryItems.keep (items : HistoryItems) (type : Option SharedMediaType) (id : Int) : Bool :=
  items.added id && items.hasType type id

def addMessage (items : HistoryItems) (type : Option SharedMediaType) (result : SearchResult) (id : Int) :
    SearchResult :=
  if items.added id then
    { result with
      messageIds := if items.hasType type id then result.messageIds ++ [id] else result.messageIds
      noSkipRange := ⟨min result.noSkipRange.from id, max result.noSkipRange.till id⟩ }
  else result

def parseSearchResult (items : HistoryItems) (type : Option SharedMediaType) (messageId : Int)
    (direction : LoadDirection) (data : Messages) : SearchResult :=
  match data.ids with
  | none => { noSkipRange := ⟨messageId, messageId⟩ }
  | some ids =>
    let result := ids.foldl (addMessage items type)
      { noSkipRange := ⟨messageId, messageId⟩, fullCount := data.fullCount }
    if messageId ≠ 0 ∧ result.messageIds = [] then
      { result with
        noSkipRange :=
          match direction with
          | .before => ⟨0, result.noSkipRange.till⟩ -- All old loaded.
          | .around => ⟨0, serverMaxMsgId⟩ -- All loaded.
          | .after => ⟨result.noSkipRange.from, serverMaxMsgId⟩ } -- All new loaded.
    else result

/-! ### The page -/

/-- How many messages are newer. -/
def newer (s : Finset Int) (id : Int) : Nat := (s.filter (id < ·)).card

/-- The messages of a page: they are counted from the newest one, the first is the largest one below
the offset, shifted. -/
def truePage (s : Finset Int) (r : SearchRequest) : Finset Int :=
  let start := (s.filter (r.offsetId ≤ ·)).card + r.addOffset
  s.filter fun id => start ≤ newer s id ∧ newer s id < start + r.limit

variable {s : Finset Int} {id id' offset messageId : Int} {direction : LoadDirection}
  {type : Option SharedMediaType} {query : String} {items : HistoryItems}

theorem newer_anti (h : id ≤ id') : newer s id' ≤ newer s id := by
  apply Finset.card_le_card
  intro x hx
  rw [Finset.mem_filter] at hx ⊢
  exact ⟨hx.1, h.trans_lt hx.2⟩

theorem card_le_newer (h : id < offset) : (s.filter (offset ≤ ·)).card ≤ newer s id := by
  apply Finset.card_le_card
  intro x hx
  rw [Finset.mem_filter] at hx ⊢
  exact ⟨hx.1, h.trans_le hx.2⟩

theorem newer_lt_card (hmem : id ∈ s) (h : offset ≤ id) :
    newer s id < (s.filter (offset ≤ ·)).card := by
  apply Finset.card_lt_card
  rw [Finset.ssubset_iff_of_subset]
  · exact ⟨id, Finset.mem_filter.mpr ⟨hmem, h⟩, by simp⟩
  · intro x hx
    rw [Finset.mem_filter] at hx ⊢
    exact ⟨hx.1, (h.trans_lt hx.2).le⟩

theorem newer_eq (hmem : id ∈ s) : newer s id + 1 = (s.filter (id ≤ ·)).card := by
  have heq : s.filter (id ≤ ·) = insert id (s.filter (id < ·)) := by
    ext x
    simp only [Finset.mem_filter, Finset.mem_insert]
    constructor
    · rintro ⟨hx, hle⟩
      rcases hle.eq_or_lt with rfl | hlt
      · exact Or.inl rfl
      · exact Or.inr ⟨hx, hlt⟩
    · rintro (rfl | ⟨hx, hlt⟩)
      · exact ⟨hmem, le_rfl⟩
      · exact ⟨hx, hlt.le⟩
  rw [heq, Finset.card_insert_of_notMem (by simp), newer]

/-- The messages on the side that is asked for. -/
def onSide (direction : LoadDirection) (messageId id : Int) : Prop :=
  match direction with
  | .before => id < messageId
  | .around => True
  | .after => messageId < id

abbrev pageOf (s : Finset Int) (type : Option SharedMediaType) (query : String) (messageId : Int)
    (direction : LoadDirection) : Finset Int :=
  truePage s (prepareSearchRequest type query messageId direction)

/-- How many messages are newer than those of the page. -/
def pageStart (s : Finset Int) (messageId : Int) : LoadDirection → Int
  | .before => (s.filter (messageId ≤ ·)).card
  | .around => (s.filter (messageId ≤ ·)).card - 50
  | .after => (s.filter (messageId + 1 ≤ ·)).card - 100

theorem mem_pageOf (hzero : messageId ≠ 0) : id ∈ pageOf s type query messageId direction ↔
    id ∈ s ∧ pageStart s messageId direction ≤ newer s id ∧
      newer s id < pageStart s messageId direction + 100 := by
  rw [pageOf, truePage, Finset.mem_filter]
  cases direction <;> simp [prepareSearchRequest, hzero, kSharedMediaLimit, pageStart, Int.sub_eq_add_neg]

theorem page_zero : pageOf s type query 0 direction = ∅ := by
  rw [pageOf, truePage, Finset.filter_eq_empty_iff]
  rintro id - ⟨hle, hlt⟩
  simp only [prepareSearchRequest, ne_eq, not_true, if_false] at hle hlt
  omega

theorem ne_zero_of_mem_page (h : id ∈ pageOf s type query messageId direction) : messageId ≠ 0 := by
  rintro rfl
  rw [page_zero] at h
  exact absurd h (Finset.notMem_empty id)

theorem mem_of_mem_page (h : id ∈ pageOf s type query messageId direction) : id ∈ s :=
  (Finset.mem_filter.mp h).1

theorem onSide_of_mem_page (h : id ∈ pageOf s type query messageId direction) :
    onSide direction messageId id := by
  obtain ⟨hmem, hle, hlt⟩ := (mem_pageOf (ne_zero_of_mem_page h)).mp h
  cases direction with
  | around => trivial
  | before =>
    by_contra hge
    have hnewer := newer_lt_card hmem (not_lt.mp hge)
    simp only [pageStart] at hle
    omega
  | after =>
    by_contra hge
    have hoffset : id < messageId + 1 := by
      simp only [onSide] at hge
      omega
    have hnewer := card_le_newer (s := s) hoffset
    simp only [pageStart] at hlt
    omega

/-- What lies between the message and one of the page is on the page. -/
theorem mem_page_of_between (h : id ∈ pageOf s type query messageId direction) (hmem : id' ∈ s)
    (hbetween : (id ≤ id' ∧ id' < messageId) ∨ (messageId < id' ∧ id' ≤ id)) :
    id' ∈ pageOf s type query messageId direction := by
  have hside := onSide_of_mem_page h
  have hzero := ne_zero_of_mem_page h
  obtain ⟨-, hle, hlt⟩ := (mem_pageOf hzero).mp h
  refine (mem_pageOf hzero).mpr ⟨hmem, ?_⟩
  rcases hbetween with ⟨hge, hlt'⟩ | ⟨hgt, hle'⟩
  · have hanti := newer_anti (s := s) hge
    have hcard := card_le_newer (s := s) hlt'
    cases direction with
    | around | before =>
      simp only [pageStart] at hle hlt ⊢
      omega
    | after =>
      simp only [onSide] at hside
      omega
  · have hanti := newer_anti (s := s) hle'
    cases direction with
    | around =>
      have hcard := newer_lt_card hmem hgt.le
      simp only [pageStart] at hle hlt ⊢
      omega
    | before =>
      simp only [onSide] at hside
      omega
    | after =>
      have hcard := newer_lt_card hmem (show messageId + 1 ≤ id' by omega)
      simp only [pageStart] at hle hlt ⊢
      omega

theorem mem_page_around (hmem : messageId ∈ s) (hzero : messageId ≠ 0) :
    messageId ∈ pageOf s type query messageId .around := by
  have hcard := newer_eq hmem
  refine (mem_pageOf hzero).mpr ⟨hmem, ?_⟩
  simp only [pageStart]
  omega

theorem notMem_page (hdirection : direction ≠ .around) :
    messageId ∉ pageOf s type query messageId direction := by
  intro hmem
  have hside := onSide_of_mem_page hmem
  cases direction with
  | around => exact hdirection rfl
  | before | after => exact lt_irrefl messageId hside

/-! ### What is known after the page -/

variable {result : SearchResult} {ids : List Int}

theorem messageIds_foldl : (ids.foldl (addMessage items type) result).messageIds =
    result.messageIds ++ ids.filter (items.keep type) := by
  induction ids generalizing result with
  | nil => simp
  | cons id ids ih =>
    rw [List.foldl_cons, ih, addMessage]
    cases hadded : items.added id <;> cases htype : items.hasType type id <;>
      simp [HistoryItems.keep, hadded, htype]

theorem from_foldl_le : (ids.foldl (addMessage items type) result).noSkipRange.from ≤ id ↔
    result.noSkipRange.from ≤ id ∨ ∃ p ∈ ids, items.added p ∧ p ≤ id := by
  induction ids generalizing result with
  | nil => simp
  | cons first ids ih =>
    rw [List.foldl_cons, ih, addMessage]
    cases hadded : items.added first with
    | false => simp [hadded]
    | true => simp [hadded, or_assoc]

theorem le_till_foldl : id ≤ (ids.foldl (addMessage items type) result).noSkipRange.till ↔
    id ≤ result.noSkipRange.till ∨ ∃ p ∈ ids, items.added p ∧ id ≤ p := by
  induction ids generalizing result with
  | nil => simp
  | cons first ids ih =>
    rw [List.foldl_cons, ih, addMessage]
    cases hadded : items.added first with
    | false => simp [hadded]
    | true => simp [hadded, or_assoc]

def MsgRange.has (range : MsgRange) (id : Int) : Prop := range.from ≤ id ∧ id ≤ range.till

/-- The messages of the result are those that are kept in its range, except for one. -/
def ExactBut (s : Finset Int) (keep : Int → Bool) (result : SearchResult) (except : Int → Prop) :
    Prop :=
  ∀ id, ¬except id → (id ∈ result.messageIds ↔ id ∈ s ∧ keep id ∧ result.noSkipRange.has id)

/-- Something on the page is kept, or nothing on the side that is asked for. -/
def Covered (s : Finset Int) (keep : Int → Bool) (page : Finset Int) (messageId : Int)
    (direction : LoadDirection) : Prop :=
  messageId = 0 ∨ (∃ id ∈ page, keep id) ∨ ∀ id ∈ s, keep id → ¬onSide direction messageId id

/-- The result before the range is opened. -/
def closedResult (items : HistoryItems) (type : Option SharedMediaType) (messageId : Int) (data : Messages)
    (ids : List Int) : SearchResult :=
  ids.foldl (addMessage items type)
    { noSkipRange := ⟨messageId, messageId⟩, fullCount := data.fullCount }

variable {data : Messages}

theorem messageIds_closedResult :
    (closedResult items type messageId data ids).messageIds = ids.filter (items.keep type) :=
  messageIds_foldl.trans (List.nil_append _)

theorem has_closedResult : (closedResult items type messageId data ids).noSkipRange.has id ↔
    (messageId ≤ id ∨ ∃ p ∈ ids, items.added p ∧ p ≤ id) ∧
      (id ≤ messageId ∨ ∃ p ∈ ids, items.added p ∧ id ≤ p) :=
  and_congr from_foldl_le le_till_foldl

/-- A page whose messages are those of the server that it asks for. -/
def IsPage (s : Finset Int) (type : Option SharedMediaType) (query : String) (messageId : Int)
    (direction : LoadDirection) (ids : List Int) : Prop :=
  ∀ id, id ∈ ids ↔ id ∈ pageOf s type query messageId direction

theorem exactBut_closed (hpage : IsPage s type query messageId direction ids) :
    ExactBut s (items.keep type) (closedResult items type messageId data ids) (· = messageId) := by
  intro id hne
  rw [messageIds_closedResult, List.mem_filter, has_closedResult, hpage]
  constructor
  · rintro ⟨hmem, hkeep⟩
    have hadded : items.added id := (Bool.and_eq_true_iff.mp hkeep).1
    exact ⟨mem_of_mem_page hmem, hkeep, Or.inr ⟨id, (hpage id).mpr hmem, hadded, le_rfl⟩,
      Or.inr ⟨id, (hpage id).mpr hmem, hadded, le_rfl⟩⟩
  · rintro ⟨hmem, hkeep, hfrom, htill⟩
    refine ⟨?_, hkeep⟩
    rcases lt_or_gt_of_ne hne with hlt | hgt
    · obtain ⟨p, hp, -, hle⟩ := hfrom.resolve_left (not_le.mpr hlt)
      exact mem_page_of_between ((hpage p).mp hp) hmem (Or.inl ⟨hle, hlt⟩)
    · obtain ⟨p, hp, -, hle⟩ := htill.resolve_left (not_le.mpr hgt)
      exact mem_page_of_between ((hpage p).mp hp) hmem (Or.inr ⟨hgt, hle⟩)

/-- The range of a page of which nothing is kept. -/
def openRange (range : MsgRange) : LoadDirection → MsgRange
  | .before => ⟨0, range.till⟩
  | .around => ⟨0, serverMaxMsgId⟩
  | .after => ⟨range.from, serverMaxMsgId⟩

theorem parseSearchResult_eq (hdata : data.ids = some ids) :
    parseSearchResult items type messageId direction data =
      if messageId ≠ 0 ∧ ids.filter (items.keep type) = [] then
        { closedResult items type messageId data ids with
          noSkipRange :=
            openRange (closedResult items type messageId data ids).noSkipRange direction }
      else closedResult items type messageId data ids := by
  rw [← @messageIds_closedResult messageId type items ids data, parseSearchResult, hdata]
  cases direction <;> rfl

theorem has_openRange (hs : ∀ id ∈ s, isServerMsgId id)
    (hpage : IsPage s type query messageId direction ids) (hmem : id ∈ s) (hne : id ≠ messageId) :
    (openRange (closedResult items type messageId data ids).noSkipRange direction).has id ↔
      onSide direction messageId id := by
  have hserver := isServerMsgId_iff.mp (hs id hmem)
  have hupper : id ≤ serverMaxMsgId := by
    rw [serverMaxMsgId]
    omega
  cases direction with
  | around => exact ⟨fun _ => trivial, fun _ => ⟨hserver.1.le, hupper⟩⟩
  | before =>
    constructor
    · rintro ⟨-, htill⟩
      rcases le_till_foldl.mp htill with hle | ⟨p, hp, -, hle⟩
      · exact lt_of_le_of_ne hle hne
      · exact hle.trans_lt (onSide_of_mem_page ((hpage p).mp hp))
    · intro hlt
      exact ⟨hserver.1.le, le_till_foldl.mpr (Or.inl (le_of_lt hlt))⟩
  | after =>
    constructor
    · rintro ⟨hfrom, -⟩
      rcases from_foldl_le.mp hfrom with hle | ⟨p, hp, -, hle⟩
      · exact lt_of_le_of_ne hle (Ne.symm hne)
      · exact lt_of_lt_of_le (onSide_of_mem_page ((hpage p).mp hp)) hle
    · intro hlt
      exact ⟨from_foldl_le.mpr (Or.inl (le_of_lt hlt)), hupper⟩

theorem exactBut_open (hs : ∀ id ∈ s, isServerMsgId id)
    (hpage : IsPage s type query messageId direction ids) (hzero : messageId ≠ 0)
    (hnone : ids.filter (items.keep type) = []) :
    ExactBut s (items.keep type)
        { closedResult items type messageId data ids with
          noSkipRange := openRange (closedResult items type messageId data ids).noSkipRange direction }
        (· = messageId) ↔
      ∀ id ∈ s, items.keep type id → ¬onSide direction messageId id := by
  simp only [ExactBut, messageIds_closedResult, hnone, List.not_mem_nil, false_iff, not_and]
  constructor
  · intro hexact id hmem hkeep hside
    by_cases hid : id = messageId
    · subst hid
      cases direction with
      | around =>
        have hpage' := (hpage id).mpr (mem_page_around hmem hzero)
        have hkept := List.mem_filter.mpr ⟨hpage', hkeep⟩
        rw [hnone] at hkept
        cases hkept
      | before | after => exact lt_irrefl _ hside
    · exact hexact id hid hmem hkeep ((has_openRange hs hpage hmem hid).mpr hside)
  · intro hside id hid hmem hkeep hhas
    exact hside id hmem hkeep ((has_openRange hs hpage hmem hid).mp hhas)

theorem exactBut_messageId_iff (hs : ∀ id ∈ s, isServerMsgId id) (hdata : data.ids = some ids)
    (hpage : IsPage s type query messageId direction ids) :
    ExactBut s (items.keep type) (parseSearchResult items type messageId direction data)
        (· = messageId) ↔
      Covered s (items.keep type) (pageOf s type query messageId direction) messageId direction := by
  rw [parseSearchResult_eq hdata]
  split
  · next hopen =>
    rw [exactBut_open hs hpage hopen.1 hopen.2, Covered, or_iff_right hopen.1, or_iff_right]
    rintro ⟨id, hmem, hkeep⟩
    have hkept := List.mem_filter.mpr ⟨(hpage id).mpr hmem, hkeep⟩
    rw [hopen.2] at hkept
    cases hkept
  · next hclosed =>
    refine iff_of_true (exactBut_closed hpage) ?_
    by_cases hzero : messageId = 0
    · exact Or.inl hzero
    · obtain ⟨id, hkept⟩ := List.exists_mem_of_ne_nil _ fun hnone => hclosed ⟨hzero, hnone⟩
      obtain ⟨hmem, hkeep⟩ := List.mem_filter.mp hkept
      exact Or.inr (Or.inl ⟨id, (hpage id).mp hmem, hkeep⟩)

/-- Of the message itself: it is always in the range, and only a page around it may have it. -/
theorem mem_result_messageId (hs : ∀ id ∈ s, isServerMsgId id) (hdata : data.ids = some ids)
    (hpage : IsPage s type query messageId direction ids) :
    (messageId ∈ (parseSearchResult items type messageId direction data).messageIds ↔
      messageId ∈ s ∧ items.keep type messageId ∧
        (parseSearchResult items type messageId direction data).noSkipRange.has messageId) ↔
      direction = .around ∨ ¬(messageId ∈ s ∧ items.keep type messageId) := by
  have hids : (parseSearchResult items type messageId direction data).messageIds =
      ids.filter (items.keep type) := by
    rw [parseSearchResult_eq hdata]
    split <;> exact messageIds_closedResult
  have hhas : messageId ∈ s →
      (parseSearchResult items type messageId direction data).noSkipRange.has messageId := by
    intro hmem
    have hserver := isServerMsgId_iff.mp (hs messageId hmem)
    have hupper : messageId ≤ serverMaxMsgId := by
      rw [serverMaxMsgId]
      omega
    have hclosed := (@has_closedResult messageId messageId type items ids data).mpr
      ⟨Or.inl le_rfl, Or.inl le_rfl⟩
    rw [parseSearchResult_eq hdata]
    split
    · cases direction with
      | around => exact ⟨hserver.1.le, hupper⟩
      | before => exact ⟨hserver.1.le, hclosed.2⟩
      | after => exact ⟨hclosed.1, hupper⟩
    · exact hclosed
  rw [hids, List.mem_filter, hpage]
  by_cases hdirection : direction = .around
  · subst hdirection
    refine iff_of_true ⟨fun h => ?_, fun h => ?_⟩ (Or.inl rfl)
    · exact ⟨mem_of_mem_page h.1, h.2, hhas (mem_of_mem_page h.1)⟩
    · refine ⟨mem_page_around h.1 ?_, h.2.1⟩
      have hserver := isServerMsgId_iff.mp (hs messageId h.1)
      omega
  · have hnot : ¬(messageId ∈ pageOf s type query messageId direction ∧
        items.keep type messageId = true) := fun h => notMem_page hdirection h.1
    rw [iff_false_left hnot, or_iff_right hdirection]
    exact ⟨fun h hmem => h ⟨hmem.1, hmem.2, hhas hmem.1⟩, fun h hmem => h ⟨hmem.1, hmem.2.1⟩⟩

theorem searchPage_exact_iff (s : Finset Int) (hs : ∀ id ∈ s, isServerMsgId id) (items : HistoryItems)
    (type : Option SharedMediaType) (query : String) (messageId : Int) (direction : LoadDirection)
    (data : Messages) (ids : List Int) (hdata : data.ids = some ids)
    (hpage : IsPage s type query messageId direction ids) :
    let result := parseSearchResult items type messageId direction data
    let covered :=
      Covered s (items.keep type) (pageOf s type query messageId direction) messageId direction
    (ExactBut s (items.keep type) result (· = messageId) ↔ covered) ∧
    (ExactBut s (items.keep type) result (fun _ => False) ↔
      covered ∧ (direction = .around ∨ ¬(messageId ∈ s ∧ items.keep type messageId))) := by
  refine ⟨exactBut_messageId_iff hs hdata hpage, ?_⟩
  rw [← exactBut_messageId_iff hs hdata hpage, ← mem_result_messageId hs hdata hpage]
  constructor
  · intro h
    exact ⟨fun id _ => h id not_false, h messageId not_false⟩
  · rintro ⟨hothers, hself⟩ id -
    by_cases hid : id = messageId
    · rw [hid]
      exact hself
    · exact hothers id hid

theorem searchPage_exact_iff_three :
    let items : HistoryItems := ⟨fun _ => true, fun id _ => id = 1⟩
    let result := parseSearchResult items (some .photo) 3 .before (.messages [2, 1])
    let covered := Covered {1, 2, 3} (items.keep (some .photo))
      (pageOf {1, 2, 3} (some .photo) "" 3 .before) 3 .before
    (ExactBut {1, 2, 3} (items.keep (some .photo)) result (· = 3) ↔ covered) ∧
    (ExactBut {1, 2, 3} (items.keep (some .photo)) result (fun _ => False) ↔
      covered ∧ (LoadDirection.before = .around ∨
        ¬(3 ∈ ({1, 2, 3} : Finset Int) ∧ items.keep (some .photo) 3))) := by
  have hpage : IsPage {1, 2, 3} (some .photo) "" 3 .before [2, 1] := by
    have heq : pageOf {1, 2, 3} (some .photo) "" 3 .before = {2, 1} := by decide
    intro id
    rw [heq]
    simp
  exact searchPage_exact_iff {1, 2, 3} (by decide) ⟨fun _ => true, fun id _ => id = 1⟩
    (some .photo) "" 3 .before (.messages [2, 1]) [2, 1] rfl hpage

/-- A hundred messages are dropped: the one before them is said not to be there. -/
theorem dropped_page_hides_older :
    let items : HistoryItems := ⟨fun _ => true, fun id _ => id = 1⟩
    let ids : List Int := (List.range 100).map fun i : Nat => (i : Int) + 2
    let result := parseSearchResult items (some .photo) 102 .before (.messagesSlice 101 ids)
    IsPage (Finset.Icc 1 101) (some .photo) "" 102 .before ids ∧ result.messageIds = [] ∧
    result.noSkipRange = ⟨0, 102⟩ ∧
    ¬ExactBut (Finset.Icc 1 101) (items.keep (some .photo)) result (· = 102) := by
  have hids : (parseSearchResult ⟨fun _ => true, fun id _ => id = 1⟩ (some .photo) 102 .before
      (.messagesSlice 101 ((List.range 100).map fun i : Nat => (i : Int) + 2))).messageIds = [] := by
    decide +kernel
  have hrange : (parseSearchResult ⟨fun _ => true, fun id _ => id = 1⟩ (some .photo) 102 .before
      (.messagesSlice 101 ((List.range 100).map fun i : Nat => (i : Int) + 2))).noSkipRange =
        ⟨0, 102⟩ := by
    decide +kernel
  refine ⟨?_, hids, hrange, fun h => ?_⟩
  · have heq : pageOf (Finset.Icc 1 101) (some .photo) "" 102 .before = Finset.Icc 2 101 := by
      decide +kernel
    intro id
    rw [heq]
    simp only [List.mem_map, List.mem_range, Finset.mem_Icc]
    constructor
    · rintro ⟨i, hi, rfl⟩
      omega
    · intro hid
      exact ⟨(id - 2).toNat, by omega, by omega⟩
  · have hone := (h 1 (by decide)).mpr ⟨by decide, by decide, by rw [hrange]; exact ⟨by decide, by decide⟩⟩
    rw [hids] at hone
    cases hone

end TelegramClient.Data
