import LasseCash.Api.AiohaSigner
import LasseCash.Lib.Growth
import Mathlib.Computability.RegularExpressions
import Mathlib.Order.CompletePartialOrder

/-! Which replies from Hive a thread shows, `visibleHiveReplies` of `api/src/magi-backend.ts`: a reply
that is answered by something shown is shown too, however it stands itself.
-/

namespace LasseCash.Api

open Growth

-----------------------------------------------------------------------------------------
-- Tip-bot commands
-----------------------------------------------------------------------------------------

/-- The characters of `\w`. -/
def isWordChar (c : Char) : Bool := c.isAlphanum || c = '_'

/-- What a pattern of commands tells apart. -/
inductive Glyph
  | bang
  | word
  | blank
  | other
  deriving DecidableEq

def glyph (c : Char) : Glyph :=
  if c = '!' then .bang
  else if isWordChar c then .word
  else if isBlank c then .blank
  else .other

section Pattern

open RegularExpression

/-- A command with an optional argument: `!\w+(?:\s+\S+)?\s*`. -/
def commandPattern : RegularExpression Glyph :=
  let some_ (p : RegularExpression Glyph) := p * star p
  let visible := char .bang + char .word + char .other
  char .bang * some_ (char .word) * (1 + some_ (char .blank) * some_ visible) * star (char .blank)

/-- A line of nothing but commands. -/
def isCommands (line : List Char) : Bool :=
  (commandPattern * star commandPattern).rmatch (line.map glyph)

end Pattern

/-- A footer, `/^posted using\b/i`. -/
def isFooter (line : List Char) : Bool :=
  let footer := "posted using".toList
  (line.take footer.length).map Char.toLower = footer
    && !((line.drop footer.length).head?.any isWordChar)

/-- Only an image, `/^!\[[^\]]*\]\([^)]*\)$/`. -/
def isImage : List Char → Bool
  | '!' :: '[' :: rest =>
      match rest.dropWhile (· ≠ ']') with
      | ']' :: '(' :: rest => rest.dropWhile (· ≠ ')') = [')']
      | _ => false
  | _ => false

/-- Only a link, `/^https?:\/\/\S+$/`. -/
def isLink (line : List Char) : Bool :=
  ["http://".toList, "https://".toList].any fun scheme =>
    scheme.isPrefixOf line && !(line.drop scheme.length).isEmpty
      && (line.drop scheme.length).all (!isBlank ·)

/-- The lines of a text, without the white space around them; empty ones are left out. A carriage
return before a break goes with that white space.
-/
def textLines (text : String) : List (List Char) :=
  ((text.toList.splitOn '\n').map fun line => (trim (.ofList line)).toList).filter (!·.isEmpty)

/-- Every line is a command, a footer, an image or a link, and there is a command. -/
def isBotCommandsOnly (text : String) : Bool :=
  let lines := textLines text
  lines.all (fun line => isCommands line || isFooter line || isImage line || isLink line)
    && lines.any isCommands

example : isBotCommandsOnly "!PIZZA 2\nPosted using X\n" = true := by decide +kernel

example : isBotCommandsOnly "!PIZZA great photo" = false := by decide +kernel

-----------------------------------------------------------------------------------------
-- The replies
-----------------------------------------------------------------------------------------

/-- What the thread needs of a comment. -/
structure ReplyView where
  author : String
  permlink : String
  parentAuthor : String
  parentPermlink : String
  body : Option String := none
  bodyExcerpt : String := ""
  shownForContext : Bool := false
  botCommands : Bool := false
  deriving DecidableEq

def ReplyView.key (v : ReplyView) : String := v.author ++ "/" ++ v.permlink

def ReplyView.parentKey (v : ReplyView) : String := v.parentAuthor ++ "/" ++ v.parentPermlink

/-- The full body where there is one. -/
def ReplyView.text (v : ReplyView) : String := v.body.getD v.bodyExcerpt

/-- A reply that only Hive has, and whether its author holds the threshold. -/
structure HiveReply where
  view : ReplyView
  qualifies : Bool
  deriving DecidableEq

def HiveReply.key (h : HiveReply) : String := h.view.key

def HiveReply.isBot (h : HiveReply) : Bool := isBotCommandsOnly h.view.text

/-- Where the growth starts: at the replies that qualify and at what is registered. -/
def startKeys (registered : List ReplyView) (hive : List HiveReply) : List String :=
  (hive.filter (·.qualifies)).map HiveReply.key ++ registered.map ReplyView.key

/-- Something shown hangs below a reply. -/
def hasVisibleChild (registered : List ReplyView) (hive : List HiveReply) (visible : List String)
    (h : HiveReply) : Bool :=
  registered.any (·.parentKey = h.key)
    || hive.any fun o => o.key ∈ visible && o.view.parentKey = h.key

/-- The keys that are visible once the growth loop has ended; `none` where it takes more than `fuel`
passes.
-/
def visibleKeys (fuel : Nat) (registered : List ReplyView) (hive : List HiveReply)
    : Option (List String) :=
  grow HiveReply.key (hasVisibleChild registered hive) hive fuel (startKeys registered hive)

/-- A reply as it is returned: one that does not qualify is marked as context. -/
def HiveReply.inContext (h : HiveReply) : ReplyView :=
  if h.qualifies then h.view else { h.view with shownForContext := true }

/-- A command as it is returned. -/
def HiveReply.flagged (h : HiveReply) : ReplyView := { h.view with botCommands := true }

/-- The replies that a thread shows: those that are visible, and the commands below them. -/
def visibleHiveReplies (fuel : Nat) (registered : List ReplyView) (hiveAll : List HiveReply)
    : Option (List ReplyView) :=
  let bots := hiveAll.filter (·.isBot)
  let hive := hiveAll.filter (!·.isBot)
  (visibleKeys fuel registered hive).map fun visible =>
    (hive.filter (·.key ∈ visible)).map HiveReply.inContext
      ++ (bots.filter (·.view.parentKey ∈ visible)).map HiveReply.flagged

-----------------------------------------------------------------------------------------
-- The least set of replies
-----------------------------------------------------------------------------------------

/-- (Shows registered hiveAll S) says that `S` keeps the rules of what is shown: a reply that is no
command is shown if it qualifies, if it is registered itself, or if something registered or something
shown answers it.
-/
structure Shows (registered : List ReplyView) (hiveAll : List HiveReply) (S : Set String)
    : Prop where
  qualified : ∀ h ∈ hiveAll, h.isBot = false → h.qualifies = true → h.key ∈ S
  known : ∀ h ∈ hiveAll, h.isBot = false → (∃ c ∈ registered, c.key = h.key) → h.key ∈ S
  answered : ∀ h ∈ hiveAll, h.isBot = false → (∃ c ∈ registered, c.parentKey = h.key) → h.key ∈ S
  imported : ∀ h ∈ hiveAll, h.isBot = false
    → (∃ o ∈ hiveAll, o.isBot = false ∧ o.key ∈ S ∧ o.view.parentKey = h.key) → h.key ∈ S

/-- What pulls a reply in, as a relation to the set of what is shown. -/
def Pulled (registered : List ReplyView) (hive : List HiveReply) (T : Set String) (h : HiveReply)
    : Prop :=
  (∃ c ∈ registered, c.parentKey = h.key) ∨ ∃ o ∈ hive, o.key ∈ T ∧ o.view.parentKey = h.key

section Thread

variable {registered : List ReplyView} {hiveAll : List HiveReply}

theorem hasVisibleChild_iff (hive : List HiveReply) (visible : List String) (h : HiveReply)
    : hasVisibleChild registered hive visible h = true
      ↔ Pulled registered hive {k | k ∈ visible} h := by
  simp [hasVisibleChild, Pulled]

/-- The more is shown, the more is pulled in. -/
theorem pulled_monotone (hive : List HiveReply) (h : HiveReply)
    : Monotone fun T => Pulled registered hive T h := by
  intro T T' le pull
  rcases pull with answered | ⟨o, there, shown, parent⟩
  · exact .inl answered
  · exact .inr ⟨o, there, le shown, parent⟩

/-- A reply that is no command is one of the candidates. -/
theorem mem_candidates {h : HiveReply}
    : h ∈ hiveAll.filter (!·.isBot) ↔ h ∈ hiveAll ∧ h.isBot = false := by
  rw [List.mem_filter, Bool.not_eq_true']

theorem mem_startKeys {k : String}
    : k ∈ startKeys registered (hiveAll.filter (!·.isBot))
      ↔ (∃ h ∈ hiveAll, h.isBot = false ∧ h.qualifies = true ∧ h.key = k)
        ∨ ∃ c ∈ registered, c.key = k := by
  simp only [startKeys, List.mem_append, List.mem_map, List.mem_filter, Bool.not_eq_true']
  simp only [and_assoc]

/-- (GrowsTo registered hiveAll T) says that growth can end in `T`. -/
abbrev GrowsTo (registered : List ReplyView) (hiveAll : List HiveReply) (T : Set String) : Prop :=
  Closed HiveReply.key (Pulled registered (hiveAll.filter (!·.isBot)))
    {k | k ∈ startKeys registered (hiveAll.filter (!·.isBot))}
    {h | h ∈ hiveAll.filter (!·.isBot)} T

/-- The keys of the replies among what is visible. -/
def shownAmong (hiveAll : List HiveReply) (visible : Set String) : Set String :=
  {k | k ∈ visible ∧ ∃ h ∈ hiveAll, h.isBot = false ∧ h.key = k}

/-- Wherever growth can end, the replies keep the rules. -/
theorem GrowsTo.shows {T : Set String} (closed : GrowsTo registered hiveAll T)
    : Shows registered hiveAll (shownAmong hiveAll T) where
  qualified h there plain qualifies :=
    ⟨closed.start (mem_startKeys.mpr (.inl ⟨h, there, plain, qualifies, rfl⟩)), h, there, plain, rfl⟩
  known h there plain known :=
    ⟨closed.start (mem_startKeys.mpr (.inr known)), h, there, plain, rfl⟩
  answered h there plain answered :=
    ⟨closed.pulled h (mem_candidates.mpr ⟨there, plain⟩) (.inl answered), h, there, plain, rfl⟩
  imported := by
    rintro h there plain ⟨o, other, words, ⟨shown, -⟩, parent⟩
    have pull : Pulled registered (hiveAll.filter (!·.isBot)) T h :=
      .inr ⟨o, mem_candidates.mpr ⟨other, words⟩, shown, parent⟩
    exact ⟨closed.pulled h (mem_candidates.mpr ⟨there, plain⟩) pull, h, there, plain, rfl⟩

/-- Together with the registered keys, growth can end in any set that keeps the rules. -/
theorem Shows.growsTo {S : Set String} (shows : Shows registered hiveAll S)
    : GrowsTo registered hiveAll (S ∪ {k | ∃ c ∈ registered, c.key = k}) where
  start k start := by
    rcases mem_startKeys.mp start with ⟨h, there, plain, qualifies, rfl⟩ | known
    · exact .inl (shows.qualified h there plain qualifies)
    · exact .inr known
  pulled h candidate pull := by
    obtain ⟨there, plain⟩ := mem_candidates.mp candidate
    left
    rcases pull with answered | ⟨o, other, shown, parent⟩
    · exact shows.answered h there plain answered
    · obtain ⟨other, words⟩ := mem_candidates.mp other
      refine shows.imported h there plain ⟨o, other, words, ?_, parent⟩
      exact shown.elim id fun known => shows.known o other words known

/-- The least end of growth holds the least set of replies, and besides that the registered keys. -/
theorem shownAmong_least {visible : Set String}
    (least : IsLeast {T | GrowsTo registered hiveAll T} visible)
    : IsLeast {S | Shows registered hiveAll S} (shownAmong hiveAll visible)
      ∧ ∀ k, k ∈ visible ↔ k ∈ shownAmong hiveAll visible ∨ ∃ c ∈ registered, c.key = k := by
  obtain ⟨closed, least⟩ := least
  have shows := GrowsTo.shows closed
  refine ⟨⟨shows, ?_⟩, fun k => ⟨fun there => least shows.growsTo there, ?_⟩⟩
  · rintro S rules k ⟨there, h, reply, plain, rfl⟩
    exact (least rules.growsTo there).elim id fun known => rules.known h reply plain known
  · rintro (shown | known)
    · exact shown.1
    · exact closed.start (mem_startKeys.mpr (.inr known))

/-- The growth loop ends within one more pass than there are replies. -/
theorem visibleKeys_ends (registered : List ReplyView) {hive : List HiveReply} {fuel : Nat}
    (enough : hive.length < fuel)
    : ∃ visible, visibleKeys fuel registered hive = some visible :=
  grow_ends ((List.length_filter_le _ _).trans_lt enough)

/-- Rules that quantify over the replies do not see their order, nor any command among them. -/
theorem Shows.congr {registered' : List ReplyView} {hiveAll' : List HiveReply}
    (sameRegistered : ∀ c, c ∈ registered ↔ c ∈ registered')
    (sameReplies : ∀ h, h.isBot = false → (h ∈ hiveAll ↔ h ∈ hiveAll')) (S : Set String)
    : Shows registered hiveAll S ↔ Shows registered' hiveAll' S := by
  have oneWay {registered registered' : List ReplyView} {hiveAll hiveAll' : List HiveReply}
      (sameRegistered : ∀ c, c ∈ registered ↔ c ∈ registered')
      (sameReplies : ∀ h, h.isBot = false → (h ∈ hiveAll ↔ h ∈ hiveAll'))
      (shows : Shows registered hiveAll S) : Shows registered' hiveAll' S := by
    refine ⟨fun h there plain => ?_, fun h there plain known => ?_, fun h there plain answered => ?_,
      fun h there plain pull => ?_⟩
    · exact shows.qualified h ((sameReplies h plain).mpr there) plain
    · obtain ⟨c, member, same⟩ := known
      exact shows.known h ((sameReplies h plain).mpr there) plain
        ⟨c, (sameRegistered c).mpr member, same⟩
    · obtain ⟨c, member, same⟩ := answered
      exact shows.answered h ((sameReplies h plain).mpr there) plain
        ⟨c, (sameRegistered c).mpr member, same⟩
    · obtain ⟨o, member, words, shown, parent⟩ := pull
      exact shows.imported h ((sameReplies h plain).mpr there) plain
        ⟨o, (sameReplies o words).mpr member, words, shown, parent⟩
  exact ⟨oneWay sameRegistered sameReplies, oneWay (fun c => (sameRegistered c).symm)
    fun h plain => (sameReplies h plain).symm⟩

/-- (Returns registered hiveAll S shown) says that `shown` is what a thread returns where `S` holds the
keys of the shown replies: these, and the commands below them or below something registered.
-/
def Returns (registered : List ReplyView) (hiveAll : List HiveReply) (S : Set String)
    (shown : List ReplyView) : Prop :=
  ∀ v, v ∈ shown
    ↔ (∃ h ∈ hiveAll, h.isBot = false ∧ h.key ∈ S ∧ v = h.inContext)
      ∨ ∃ h ∈ hiveAll, h.isBot = true
        ∧ (h.view.parentKey ∈ S ∨ ∃ c ∈ registered, c.key = h.view.parentKey) ∧ v = h.flagged

theorem visibleHiveReplies_returns {fuel : Nat} {shown : List ReplyView}
    (returned : visibleHiveReplies fuel registered hiveAll = some shown)
    : ∃ S, IsLeast {S | Shows registered hiveAll S} S ∧ Returns registered hiveAll S shown := by
  obtain ⟨visible, grows, rfl⟩ := Option.map_eq_some_iff.mp returned
  have least : IsLeast {T | GrowsTo registered hiveAll T} {k | k ∈ visible} :=
    grow_least (hasVisibleChild_iff (hiveAll.filter (!·.isBot))) (pulled_monotone _) grows
  obtain ⟨leastShown, visible_iff⟩ := shownAmong_least least
  refine ⟨_, leastShown, fun v => ?_⟩
  rw [List.mem_append]
  refine or_congr ?_ ?_
  · constructor
    · intro there
      obtain ⟨h, candidate, rfl⟩ := List.mem_map.mp there
      obtain ⟨candidate, visible⟩ := List.mem_filter.mp candidate
      obtain ⟨there, plain⟩ := mem_candidates.mp candidate
      exact ⟨h, there, plain, ⟨of_decide_eq_true visible, h, there, plain, rfl⟩, rfl⟩
    · rintro ⟨h, there, plain, ⟨visible, -⟩, rfl⟩
      refine List.mem_map.mpr ⟨h, List.mem_filter.mpr ⟨?_, decide_eq_true visible⟩, rfl⟩
      exact mem_candidates.mpr ⟨there, plain⟩
  · constructor
    · intro there
      obtain ⟨h, candidate, rfl⟩ := List.mem_map.mp there
      obtain ⟨candidate, visible⟩ := List.mem_filter.mp candidate
      obtain ⟨there, bot⟩ := List.mem_filter.mp candidate
      exact ⟨h, there, bot, (visible_iff _).mp (of_decide_eq_true visible), rfl⟩
    · rintro ⟨h, there, bot, below, rfl⟩
      refine List.mem_map.mpr ⟨h, List.mem_filter.mpr ⟨?_, ?_⟩, rfl⟩
      · exact List.mem_filter.mpr ⟨there, bot⟩
      · exact decide_eq_true ((visible_iff _).mpr below)

/-- For any registered comments and replies from Hive: the growth loop ends, and what is returned are
the replies of the least set that keeps the rules, with the commands below them or below something
registered. In another order the same replies are returned, and further commands make no reply
visible.
-/
theorem visible_replies_least (registered : List ReplyView) (hiveAll : List HiveReply)
    : ∃ S, IsLeast {S | Shows registered hiveAll S} S
      ∧ (∀ fuel, hiveAll.length < fuel
        → ∃ shown, visibleHiveReplies fuel registered hiveAll = some shown)
      ∧ (∀ fuel shown, visibleHiveReplies fuel registered hiveAll = some shown
        → Returns registered hiveAll S shown)
      ∧ (∀ registered' hiveAll' fuel shown, registered'.Perm registered → hiveAll'.Perm hiveAll
        → visibleHiveReplies fuel registered' hiveAll' = some shown
        → Returns registered hiveAll S shown)
      ∧ ∀ bots fuel shown, (∀ b ∈ bots, b.isBot = true)
        → visibleHiveReplies fuel registered (bots ++ hiveAll) = some shown
        → Returns registered (bots ++ hiveAll) S shown := by
  have ends (fuel : Nat) (enough : hiveAll.length < fuel)
      : ∃ shown, visibleHiveReplies fuel registered hiveAll = some shown := by
    have plain_le := List.length_filter_le (fun h : HiveReply => !h.isBot) hiveAll
    obtain ⟨visible, grows⟩ := visibleKeys_ends registered (plain_le.trans_lt enough)
    exact ⟨_, Option.map_eq_some_iff.mpr ⟨visible, grows, rfl⟩⟩
  obtain ⟨shown, returned⟩ := ends (hiveAll.length + 1) (Nat.lt_succ_self _)
  obtain ⟨S, least, -⟩ := visibleHiveReplies_returns returned
  refine ⟨S, least, ends, ?_, ?_, ?_⟩
  · intro fuel shown returned
    obtain ⟨S', least', returns⟩ := visibleHiveReplies_returns returned
    rwa [least.unique least']
  · intro registered' hiveAll' fuel shown permuted reordered returned
    obtain ⟨S', least', returns⟩ := visibleHiveReplies_returns returned
    have same : {S | Shows registered' hiveAll' S} = {S | Shows registered hiveAll S} :=
      Set.ext fun S => Shows.congr (fun _ => permuted.mem_iff) (fun _ _ => reordered.mem_iff) S
    rw [same] at least'
    rw [least.unique least']
    intro v
    simpa only [permuted.mem_iff, reordered.mem_iff] using returns v
  · intro bots fuel shown commands returned
    obtain ⟨S', least', returns⟩ := visibleHiveReplies_returns returned
    have same : {S | Shows registered (bots ++ hiveAll) S} = {S | Shows registered hiveAll S} := by
      refine Set.ext fun S => Shows.congr (fun _ => Iff.rfl) (fun h plain => ?_) S
      rw [List.mem_append, or_iff_right]
      intro bot
      rw [commands h bot] at plain
      cases plain
    rw [same] at least'
    rwa [least.unique least']

end Thread

/-- Two replies below each other, in a circle that nothing registered answers, stay out; one that
qualifies brings the whole circle in.
-/
example :
    let reply (permlink parent : String) (qualifies : Bool) : HiveReply :=
      ⟨{ author := "a", permlink, parentAuthor := "a", parentPermlink := parent }, qualifies⟩
    (visibleHiveReplies 3 [] [reply "x" "y" false, reply "y" "x" false]).map List.length = some 0
      ∧ (visibleHiveReplies 3 [] [reply "x" "y" false, reply "y" "x" true]).map List.length
        = some 2 := by
  decide +kernel

end LasseCash.Api
