import LasseCash.State.Leaderboard

/-! What an offer does to a leaderboard of any content: it seats the best candidates, except that a
full board gives up its last seat, whoever sits there.
-/

namespace LasseCash.State

open Engine MachineInt Ranking

variable {r : Rows} {account : String}

/-- Those who compete for the seats. -/
def candidates (r : Rows) (account : String) : List String :=
  account :: r.board.filter (· ≠ account)

/-- The candidates with shares that outrank `x`. -/
def better (r : Rows) (account x : String) : List String :=
  (candidates r account).filter fun b =>
    0 < sharesOf r b ∧ seatRank (sharesOf r) b < seatRank (sharesOf r) x

/-- (AmongBest r account x) says that `x` is one of the candidates with shares that rank first, as
many as there are seats.
-/
def AmongBest (r : Rows) (account x : String) : Prop :=
  x ∈ candidates r account ∧ (better r account x).length < boardSize

/-- (BoardContent r) says that the board holds different accounts, no more than it has seats. -/
structure BoardContent (r : Rows) : Prop where
  apart : r.board.Nodup
  named : "" ∉ r.board
  size : r.board.length ≤ boardSize

/-- (KeepsBest r account) says that an offer leaves candidates on the board, of those with shares
exactly the best, and drops no account with shares while one that ranks after it stays.
-/
structure KeepsBest (r : Rows) (account : String) : Prop where
  content : BoardContent (offer r account)
  known : (offer r account).board ⊆ candidates r account
  best : ∀ x, 0 < sharesOf r x → (x ∈ (offer r account).board ↔ AmongBest r account x)
  fair : ∀ dropped ∈ candidates r account, 0 < sharesOf r dropped
    → dropped ∉ (offer r account).board
    → ∀ stays ∈ (offer r account).board,
      seatRank (sharesOf r) stays < seatRank (sharesOf r) dropped

/-- (SafeTail r account) says that a newcomer who beats somebody on a full board finds its last seat
without shares, or with the worst rank.
-/
def SafeTail (r : Rows) (account : String) : Prop :=
  account ∉ r.board → r.board.length = boardSize → 0 < sharesOf r account
    → (∃ b ∈ r.board, seatRank (sharesOf r) account < seatRank (sharesOf r) b)
    → ∀ last ∈ r.board.getLast?, 0 < sharesOf r last
      → ∀ b ∈ r.board, seatRank (sharesOf r) b ≤ seatRank (sharesOf r) last

theorem mem_candidates {x : String} : x ∈ candidates r account ↔ x = account ∨ x ∈ r.board := by
  by_cases same : x = account <;> simp [candidates, same]

theorem BoardContent.candidates_nodup (content : BoardContent r) (account : String)
    : (candidates r account).Nodup :=
  List.nodup_cons.mpr ⟨by simp, content.apart.filter _⟩

-----------------------------------------------------------------------------------------
-- Counting the candidates ahead
-----------------------------------------------------------------------------------------

/-- Candidates that are not ahead of `x` leave fewer that are. -/
theorem better_room (content : BoardContent r) {x : String} (behind : List String)
    (apart : behind.Nodup) (inside : behind ⊆ candidates r account)
    (notAhead : ∀ b ∈ behind, 0 < sharesOf r b
      → seatRank (sharesOf r) x ≤ seatRank (sharesOf r) b)
    : behind.length + (better r account x).length ≤ (candidates r account).length := by
  refine Ranking.filter_room (content.candidates_nodup account) apart inside fun b there => ?_
  refine decide_eq_false ?_
  rintro ⟨holds, ahead⟩
  exact absurd ahead (notAhead b there holds).not_gt

theorem BoardContent.candidates_length (content : BoardContent r) (account : String)
    : (candidates r account).length ≤ boardSize + 1 := by
  have less := List.length_filter_le (fun x => decide (x ≠ account)) r.board
  have size := content.size
  rw [candidates, List.length_cons]
  omega

/-- An offer that seats every candidate with shares, no more of them than seats, keeps the best. -/
theorem KeepsBest.of_room (content : BoardContent r) (after : BoardContent (offer r account))
    (known : (offer r account).board ⊆ candidates r account)
    (all : ∀ x ∈ candidates r account, 0 < sharesOf r x → x ∈ (offer r account).board)
    (room : (candidates r account).length ≤ boardSize
      ∨ ∃ dead ∈ candidates r account, sharesOf r dead ≤ 0)
    : KeepsBest r account := by
  refine ⟨after, known, fun x holds => ⟨fun there => ⟨known there, ?_⟩, fun best =>
    all x best.1 holds⟩, fun dropped there holds gone => absurd (all dropped there holds) gone⟩
  have most := content.candidates_length account
  rcases room with few | ⟨dead, member, none⟩
  · have ahead := better_room content (x := x) [x]
      (List.nodup_singleton x) (List.cons_subset.mpr ⟨known there, List.nil_subset _⟩) (by simp)
    rw [List.length_singleton] at ahead
    omega
  · have distinct : x ≠ dead := by
      intro same
      rw [same] at holds
      exact absurd holds none.not_gt
    have ahead := better_room content (x := x) [x, dead] (by simpa using distinct)
      (List.cons_subset.mpr ⟨known there, List.cons_subset.mpr ⟨member, List.nil_subset _⟩⟩)
      (by simpa using fun holds => absurd holds none.not_gt)
    rw [List.length_cons, List.length_singleton] at ahead
    omega

/-- An offer that leaves out the one candidate too many that ranks last keeps the best. -/
theorem KeepsBest.of_last (content : BoardContent r) (after : BoardContent (offer r account))
    {out : String} (member : out ∈ candidates r account) (holds : 0 < sharesOf r out)
    (last : ∀ b ∈ candidates r account, seatRank (sharesOf r) b ≤ seatRank (sharesOf r) out)
    (many : (candidates r account).length = boardSize + 1)
    (board : ∀ y, y ∈ (offer r account).board ↔ y ∈ candidates r account ∧ y ≠ out)
    : KeepsBest r account := by
  have ahead : ∀ b ∈ candidates r account, b ≠ out
      → seatRank (sharesOf r) b < seatRank (sharesOf r) out :=
    fun b there other => (last b there).lt_of_ne fun tie =>
      other (seatRank_injective _ tie)
  refine ⟨after, fun y there => ((board y).mp there).1, fun x holdsToo => ⟨?_, ?_⟩, ?_⟩
  · intro there
    obtain ⟨inside, other⟩ := (board x).mp there
    have room := better_room content (x := x) [x, out] (by simpa using other)
      (List.cons_subset.mpr ⟨inside, List.cons_subset.mpr ⟨member, List.nil_subset _⟩⟩)
      (by simpa using fun _ => last x inside)
    rw [List.length_cons, List.length_singleton] at room
    exact ⟨inside, by omega⟩
  · rintro ⟨inside, few⟩
    refine (board x).mpr ⟨inside, ?_⟩
    rintro rfl
    -- all the others are ahead of the last
    have others : (candidates r account).filter (· ≠ x) = better r account x := by
      refine List.filter_congr fun b there => decide_eq_decide.mpr ⟨fun other => ?_, ?_⟩
      · have before := ahead b there other
        exact ⟨holds_of_before holds before, before⟩
      · rintro ⟨-, before⟩ rfl
        exact lt_irrefl _ before
    have nodup := content.candidates_nodup account
    have count := List.length_erase_of_mem member
    rw [nodup.erase_eq_filter] at count
    have same : (candidates r account).filter (· != x)
        = (candidates r account).filter (· ≠ x) :=
      List.filter_congr fun b _ => by by_cases other : b = x <;> simp [other]
    rw [same, others, many] at count
    omega
  · intro dropped there live gone stays seat
    obtain ⟨inside, other⟩ := (board stays).mp seat
    have only : dropped = out := by
      by_contra other
      exact gone ((board dropped).mpr ⟨there, other⟩)
    rw [only]
    exact ahead stays inside other

-----------------------------------------------------------------------------------------
-- The board after an offer
-----------------------------------------------------------------------------------------

/-- (Unbeaten r account) says that an account off a full board ranks after all who sit there. -/
structure Unbeaten (r : Rows) (account : String) : Prop where
  outside : account ∉ r.board
  full : boardSize ≤ r.board.length
  before : ∀ b ∈ r.board, seatRank (sharesOf r) b ≤ seatRank (sharesOf r) account

/-- A board that fits and names its accounts is stored as it is. -/
theorem putBoard_named {accounts : List String} (named : "" ∉ accounts)
    (fits : accounts.length ≤ boardSize)
    : (r.putBoard accounts).board = accounts := by
  have whole : accounts.take 20 = accounts := List.take_of_length_le fits
  rw [Rows.putBoard_board, whole, if_neg]
  rintro rfl
  exact named List.mem_cons_self

theorem offer_without_shares (content : BoardContent r) (none : sharesOf r account ≤ 0)
    : (offer r account).board = r.board.filter (· ≠ account) := by
  have named : "" ∉ r.board.filter (· ≠ account) := fun there =>
    content.named (List.mem_of_mem_filter there)
  have fits : (r.board.filter (· ≠ account)).length ≤ boardSize :=
    (List.length_filter_le _ _).trans content.size
  unfold offer
  dsimp only
  rw [if_pos none]
  by_cases seat : account ∈ r.board
  · rw [if_pos seat]
    exact putBoard_named named fits
  · rw [if_neg seat, List.filter_eq_self.mpr]
    intro b there
    refine decide_eq_true ?_
    rintro rfl
    exact seat there

theorem offer_unbeaten (holds : 0 < sharesOf r account) (unbeaten : Unbeaten r account)
    : offer r account = r := by
  unfold offer
  dsimp only
  rw [if_neg holds.not_ge, if_pos]
  refine ⟨unbeaten.outside, unbeaten.full, ?_⟩
  cases board : r.board with
  | nil => rfl
  | cons first rest =>
      have there := (weakestOnBoard_last r first rest).1
      rw [← board] at there
      refine Bool.eq_false_iff.mpr fun beaten => ?_
      exact absurd ((betterSeat_iff r account _).mp beaten) (unbeaten.before _ there).not_gt

theorem offer_seated (named : account ≠ "") (holds : 0 < sharesOf r account)
    (beats : ¬Unbeaten r account)
    : (offer r account).board = seated r account := by
  rcases offer_seats named holds with board | ⟨outside, full, before⟩
  · exact board
  · exact absurd ⟨outside, full, before⟩ beats

/-- The candidates as they stand once the account has entered. -/
def entered (r : Rows) (account : String) : List String :=
  insertOnBoard r account (sharesOf r account) (r.board.filter (· ≠ account))

theorem entered_perm (r : Rows) (account : String)
    : (entered r account).Perm (candidates r account) := by
  rw [entered, insertOnBoard_eq]
  exact List.perm_orderedInsert _ account _

/-- After any offer the board is one an offer may find. -/
theorem BoardContent.offer (content : BoardContent r) (named : account ≠ "")
    : BoardContent (State.offer r account) := by
  rcases le_or_gt (sharesOf r account) 0 with none | holds
  · have board := offer_without_shares content none
    refine ⟨offer_nodup content.apart account, ?_, ?_⟩
    · rw [board]
      exact fun there => content.named (List.mem_of_mem_filter there)
    · rw [board]
      exact (List.length_filter_le _ _).trans content.size
  · by_cases unbeaten : Unbeaten r account
    · rw [offer_unbeaten holds unbeaten]
      exact content
    · have board := offer_seated named holds unbeaten
      refine ⟨offer_nodup content.apart account, ?_, ?_⟩
      · rw [board]
        intro there
        have entry := (entered_perm r account).mem_iff.mp (List.mem_of_mem_take there)
        rcases mem_candidates.mp entry with same | seat
        · exact named same.symm
        · exact content.named seat
      · rw [board]
        exact List.length_take_le boardSize _

/-- An entry placed before one it outranks leaves the last seat as it is, by induction on the
board.
-/
theorem insertOnBoard_last {board : List String}
    (beats : ∃ b ∈ board, seatRank (sharesOf r) account < seatRank (sharesOf r) b)
    : (insertOnBoard r account (sharesOf r account) board).getLast? = board.getLast? := by
  induction board with
  | nil =>
      obtain ⟨b, there, -⟩ := beats
      exact absurd there List.not_mem_nil
  | cons a rest ih =>
      rw [insertOnBoard]
      by_cases ahead : betterSeat r account (sharesOf r account) a = true
      · rw [if_pos ahead]
        exact List.getLast?_cons_cons
      · rw [if_neg ahead]
        obtain ⟨b, there, before⟩ := beats
        rcases List.mem_cons.mp there with rfl | deeper
        · exact absurd ((betterSeat_iff r account b).mpr before) ahead
        · rw [List.getLast?_cons, List.getLast?_cons, ih ⟨b, deeper, before⟩]

-----------------------------------------------------------------------------------------
-- Who offers well
-----------------------------------------------------------------------------------------

theorem candidates_outside (outside : account ∉ r.board)
    : candidates r account = account :: r.board := by
  refine congrArg (account :: ·) (List.filter_eq_self.mpr fun b there => decide_eq_true ?_)
  rintro rfl
  exact outside there

/-- A newcomer who beats somebody on a full board takes the place of whoever has the last seat. -/
theorem seated_full (content : BoardContent r) (outside : account ∉ r.board)
    (full : r.board.length = boardSize)
    (beats : ∃ b ∈ r.board, seatRank (sharesOf r) account < seatRank (sharesOf r) b)
    : ∃ last, r.board.getLast? = some last
      ∧ ∀ y, y ∈ seated r account ↔ y ∈ candidates r account ∧ y ≠ last := by
  have same := entered_perm r account
  have board : r.board.filter (· ≠ account) = r.board :=
    (List.cons_inj_right account).mp (candidates_outside outside)
  have long : (entered r account).length = boardSize + 1 := by
    rw [same.length_eq, candidates_outside outside, List.length_cons, full]
  have front : seated r account = (entered r account).dropLast := by
    rw [List.dropLast_eq_take, long]
    rfl
  obtain ⟨last, final⟩ : ∃ last, (entered r account).getLast? = some last :=
    Option.isSome_iff_exists.mp (List.getLast?_isSome.mpr fun empty => by simp [empty] at long)
  have split := List.dropLast_append_getLast? last final
  refine ⟨last, ?_, fun y => ?_⟩
  · rw [entered, board, insertOnBoard_last beats] at final
    exact final
  · have apart := same.nodup_iff.mpr (content.candidates_nodup account)
    rw [← split] at apart
    have alone := (List.nodup_append.mp apart).2.2
    rw [front, ← same.mem_iff]
    constructor
    · intro there
      exact ⟨List.mem_of_mem_dropLast there, alone y there last List.mem_cons_self⟩
    · rintro ⟨there, other⟩
      rw [← split] at there
      exact (List.mem_append.mp there).resolve_right fun single =>
        other (List.mem_singleton.mp single)

theorem KeepsBest.without_shares (content : BoardContent r) (named : account ≠ "")
    (none : sharesOf r account ≤ 0)
    : KeepsBest r account := by
  have board := offer_without_shares content none
  refine .of_room content (content.offer named) ?_ ?_
    (.inr ⟨account, mem_candidates.mpr (.inl rfl), none⟩)
  · rw [board]
    exact fun b there => mem_candidates.mpr (.inr (List.mem_of_mem_filter there))
  · intro x there live
    rw [board]
    have other : x ≠ account := by
      rintro rfl
      exact absurd none live.not_ge
    exact List.mem_filter.mpr
      ⟨(mem_candidates.mp there).resolve_left other, decide_eq_true other⟩

/-- An unbeaten board leaves out the account itself. -/
theorem KeepsBest.unbeaten (content : BoardContent r) (named : account ≠ "")
    (holds : 0 < sharesOf r account) (unbeaten : Unbeaten r account)
    : KeepsBest r account := by
  refine .of_last content (content.offer named) (mem_candidates.mpr (.inl rfl)) holds ?_ ?_
    fun y => ?_
  · intro b there
    rcases mem_candidates.mp there with rfl | seat
    · exact le_rfl
    · exact unbeaten.before b seat
  · rw [candidates_outside unbeaten.outside, List.length_cons]
    exact congrArg (· + 1) (le_antisymm content.size unbeaten.full)
  · rw [offer_unbeaten holds unbeaten, mem_candidates]
    constructor
    · intro there
      refine ⟨.inr there, ?_⟩
      rintro rfl
      exact unbeaten.outside there
    · rintro ⟨there, other⟩
      exact there.resolve_left other

/-- With a seat for everybody nobody is left out. -/
theorem KeepsBest.seats_all (content : BoardContent r) (named : account ≠ "")
    (holds : 0 < sharesOf r account) (open' : r.board.length = boardSize → account ∈ r.board)
    : KeepsBest r account := by
  have few : (candidates r account).length ≤ boardSize := by
    by_cases seat : account ∈ r.board
    · have less : (r.board.filter (· ≠ account)).length < r.board.length :=
        List.length_filter_lt_length_iff_exists.mpr ⟨account, seat, by simp⟩
      exact less.trans_le content.size
    · rw [candidates_outside seat]
      exact content.size.lt_of_ne fun full => seat (open' full)
  have board : (offer r account).board = entered r account := by
    rw [offer_seated named holds fun unbeaten => unbeaten.outside
      (open' (le_antisymm content.size unbeaten.full))]
    exact List.take_of_length_le ((entered_perm r account).length_eq.trans_le few)
  refine .of_room content (content.offer named) ?_ ?_ (.inl few)
  · rw [board]
    exact fun y there => (entered_perm r account).mem_iff.mp there
  · intro x there _
    rw [board]
    exact (entered_perm r account).mem_iff.mpr there

/-- A newcomer who beats somebody on a full board is seated well exactly when the last seat is
worth the least.
-/
theorem keepsBest_full (content : BoardContent r) (named : account ≠ "")
    (holds : 0 < sharesOf r account) (outside : account ∉ r.board)
    (full : r.board.length = boardSize)
    (beats : ∃ b ∈ r.board, seatRank (sharesOf r) account < seatRank (sharesOf r) b)
    : KeepsBest r account
      ↔ ∀ last ∈ r.board.getLast?, 0 < sharesOf r last
        → ∀ b ∈ r.board, seatRank (sharesOf r) b ≤ seatRank (sharesOf r) last := by
  obtain ⟨last, final, seats⟩ := seated_full content outside full beats
  obtain ⟨beaten, ahead, before⟩ := beats
  rw [← offer_seated named holds fun unbeaten =>
    absurd before (unbeaten.before beaten ahead).not_gt] at seats
  have seat : last ∈ r.board := List.mem_of_getLast? final
  have member : last ∈ candidates r account := mem_candidates.mpr (.inr seat)
  rw [final]
  simp only [Option.mem_some_iff, forall_eq']
  rcases le_or_gt (sharesOf r last) 0 with dead | live
  · refine ⟨fun _ live => absurd dead live.not_ge, fun _ => ?_⟩
    refine .of_room content (content.offer named) (fun y there => ((seats y).mp there).1) ?_
      (.inr ⟨last, member, dead⟩)
    intro x there live
    refine (seats x).mpr ⟨there, ?_⟩
    rintro rfl
    exact absurd dead live.not_ge
  · constructor
    · intro best _ b there
      by_cases same : b = last
      · rw [same]
      · have stays := (seats b).mpr ⟨mem_candidates.mpr (.inr there), same⟩
        have gone : last ∉ (offer r account).board := fun kept => ((seats last).mp kept).2 rfl
        exact (best.fair last member live gone b stays).le
    · intro worst
      refine .of_last content (content.offer named) member live ?_ ?_ seats
      · intro b there
        rcases mem_candidates.mp there with rfl | seat
        · exact before.le.trans (worst live beaten ahead)
        · exact worst live b seat
      · rw [candidates_outside outside, List.length_cons, full]

/-- An offer keeps the best candidates exactly when it finds no live holder in the last seat of a
full board ahead of somebody else there.
-/
theorem offer_keeps_best (content : BoardContent r) (named : account ≠ "")
    : KeepsBest r account ↔ SafeTail r account := by
  rcases le_or_gt (sharesOf r account) 0 with none | holds
  · exact ⟨fun _ _ _ holds => absurd none holds.not_ge, fun _ => .without_shares content named none⟩
  by_cases newcomer : account ∉ r.board ∧ r.board.length = boardSize
  · obtain ⟨outside, full⟩ := newcomer
    by_cases beats : ∃ b ∈ r.board, seatRank (sharesOf r) account < seatRank (sharesOf r) b
    · rw [keepsBest_full content named holds outside full beats]
      exact ⟨fun worst _ _ _ _ => worst, fun safe => safe outside full holds beats⟩
    · refine ⟨fun _ _ _ _ beaten => absurd beaten beats, fun _ => ?_⟩
      refine .unbeaten content named holds ⟨outside, full.ge, fun b there => ?_⟩
      exact not_lt.mp fun before => beats ⟨b, there, before⟩
  · refine ⟨fun _ outside full => absurd ⟨outside, full⟩ newcomer, fun _ => ?_⟩
    refine .seats_all content named holds fun full => ?_
    by_contra outside
    exact newcomer ⟨outside, full⟩

/-- Nineteen holders whose mints the walk has retired. -/
def cliffs : List String := (List.range 19).map fun i => "hive:cliff" ++ encU64 i

/-- A board on which one other holder is left, and a newcomer with fewer shares. -/
def afterCliff (board : List String) : Rows :=
  ((Rows.empty.putBoard board).setAmount (.shares "hive:longterm") 1500).setAmount
    (.shares "hive:newcomer") 745

/-- The survivor in the first seat keeps it. -/
theorem newcomer_beside_survivor
    : KeepsBest (afterCliff ("hive:longterm" :: cliffs)) "hive:newcomer" := by
  have content : BoardContent (afterCliff ("hive:longterm" :: cliffs)) :=
    ⟨by decide +kernel, by decide +kernel, by decide +kernel⟩
  refine (offer_keeps_best content (by decide)).mpr fun _ _ _ _ last there live => ?_
  obtain rfl : "hive:cliff18" = last := Option.some.inj there
  exact absurd live (by decide +kernel)

/-- The survivor in the last seat loses it to the newcomer, while the others keep theirs. -/
theorem newcomer_drops_survivor
    : BoardContent (afterCliff (cliffs ++ ["hive:longterm"]))
      ∧ (offer (afterCliff (cliffs ++ ["hive:longterm"])) "hive:newcomer").board
        = "hive:newcomer" :: cliffs
      ∧ ¬KeepsBest (afterCliff (cliffs ++ ["hive:longterm"])) "hive:newcomer" := by
  have board : (offer (afterCliff (cliffs ++ ["hive:longterm"])) "hive:newcomer").board
      = "hive:newcomer" :: cliffs := by
    decide +kernel
  refine ⟨⟨by decide +kernel, by decide +kernel, by decide +kernel⟩, board, fun best => ?_⟩
  have behind := best.fair "hive:longterm" (by decide +kernel) (by decide +kernel)
    (by rw [board]; decide +kernel) "hive:cliff0" (by rw [board]; decide +kernel)
  exact absurd behind (by decide +kernel)

end LasseCash.State
