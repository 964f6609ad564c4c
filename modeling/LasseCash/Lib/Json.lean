import Mathlib.Data.List.Basic
import Mathlib.Order.Basic
import Mathlib.Order.Nat

/-! JSON texts: a reader of RFC 8259 texts, and when a text between quotes stands for itself. -/

namespace Json

/-- A JSON value. A number keeps its literal, an object all its members in order. -/
inductive Value
  | null
  | bool (b : Bool)
  | number (literal : List Char)
  | string (s : String)
  | array (items : List Value)
  | object (members : List (String × Value))

/-- What a reader finds: a value of some kind and the text after it. -/
abbrev Reader (α : Type) := List Char → Option (α × List Char)

/-- Drops the white space that may stand between tokens. -/
def skip (text : List Char) : List Char := text.dropWhile (· ∈ [' ', '\t', '\n', '\r'])

-----------------------------------------------------------------------------------------
-- Strings
-----------------------------------------------------------------------------------------

/-- A part of a string: a character, or the UTF-16 code unit of a `\u` escape. -/
inductive Piece
  | char (c : Char)
  | unit (n : Nat)

def hexDigit (c : Char) : Option Nat :=
  if c.isDigit then some (c.toNat - 48)
  else if 'a' ≤ c ∧ c ≤ 'f' then some (c.toNat - 87)
  else if 'A' ≤ c ∧ c ≤ 'F' then some (c.toNat - 55)
  else none

/-- The character of a two-character escape. -/
def escaped (e : Char) : Option Char :=
  match e with
  | '"' => some '"'
  | '\\' => some '\\'
  | '/' => some '/'
  | 'b' => some (.ofNat 8)
  | 'f' => some (.ofNat 12)
  | 'n' => some '\n'
  | 'r' => some '\r'
  | 't' => some '\t'
  | _ => none

/-- Where a reader stands in a string: among its characters, after a backslash, or within a `\u`
escape with so many digits to come after the next.
-/
inductive Place
  | text
  | escape
  | unit (left value : Nat)

/-- The parts of a string from a place on, up to the closing quote. -/
def pieces : Place → Reader (List Piece)
  | _, [] => none
  | .text, c :: rest =>
      if c = '"' then some ([], rest)
      else if c = '\\' then pieces .escape rest
      else if c.toNat < 0x20 then none
      else (pieces .text rest).map fun (ps, rest) => (.char c :: ps, rest)
  | .escape, e :: rest =>
      if e = 'u' then pieces (.unit 3 0) rest
      else
        match escaped e with
        | none => none
        | some c => (pieces .text rest).map fun (ps, rest) => (.char c :: ps, rest)
  | .unit left value, d :: rest =>
      match hexDigit d, left with
      | none, _ => none
      | some v, 0 =>
          (pieces .text rest).map fun (ps, rest) => (.unit (value * 16 + v) :: ps, rest)
      | some v, left + 1 => pieces (.unit left (value * 16 + v)) rest

/-- The character of a code unit that has no partner; a surrogate stands for U+FFFD. -/
def unitChar (n : Nat) : Char := if 0xD800 ≤ n ∧ n < 0xE000 then '\uFFFD' else .ofNat n

/-- The characters of a string's parts, surrogate pairs combined. -/
def decode : List Piece → List Char
  | [] => []
  | .char c :: ps => c :: decode ps
  | .unit high :: .unit low :: ps =>
      if 0xD800 ≤ high ∧ high < 0xDC00 ∧ 0xDC00 ≤ low ∧ low < 0xE000 then
        .ofNat (0x10000 + (high - 0xD800) * 0x400 + (low - 0xDC00)) :: decode ps
      else unitChar high :: decode (.unit low :: ps)
  | .unit n :: ps => unitChar n :: decode ps

/-- The rest of a string after its opening quote. -/
def string : Reader String := fun text => do
  let (ps, rest) ← pieces .text text
  return (.ofList (decode ps), rest)

-----------------------------------------------------------------------------------------
-- Numbers
-----------------------------------------------------------------------------------------

/-- A run of digits, at least one. -/
def digits : Reader (List Char) := fun text =>
  match text.span Char.isDigit with
  | ([], _) => none
  | run => some run

/-- The integer part of a number: no digit follows a leading zero. -/
def integer : Reader (List Char)
  | '0' :: rest => some (['0'], rest)
  | text => digits text

/-- The fraction of a number, if there is one. -/
def fraction : Reader (List Char)
  | '.' :: rest => do
      let (ds, rest) ← digits rest
      return ('.' :: ds, rest)
  | text => some ([], text)

/-- The exponent of a number, if there is one. -/
def exponent : Reader (List Char)
  | e :: rest =>
      if e = 'e' ∨ e = 'E' then
        match rest with
        | sign :: rest' =>
            if sign = '+' ∨ sign = '-' then do
              let (ds, rest) ← digits rest'
              return (e :: sign :: ds, rest)
            else do
              let (ds, rest) ← digits rest
              return (e :: ds, rest)
        | [] => none
      else some ([], e :: rest)
  | [] => some ([], [])

def number : Reader (List Char) := fun text => do
  let (sign, text) := match text with
    | '-' :: rest => (['-'], rest)
    | text => ([], text)
  let (whole, text) ← integer text
  let (part, text) ← fraction text
  let (power, text) ← exponent text
  return (sign ++ whole ++ part ++ power, text)

-----------------------------------------------------------------------------------------
-- Values
-----------------------------------------------------------------------------------------

/-- Drops a token, if it is the next one. -/
def token (c : Char) (text : List Char) : Option (List Char) :=
  match skip text with
  | d :: rest => if d = c then some rest else none
  | [] => none

/-- A literal name. -/
def word (name : String) (v : Value) : Reader Value := fun text =>
  if name.toList.isPrefixOf text then some (v, text.drop name.length) else none

/-- A value that is neither a string nor made of others. -/
def scalar : Reader Value := fun text =>
  word "true" (.bool true) text <|> word "false" (.bool false) text <|> word "null" .null text
    <|> (number text).map fun (literal, rest) => (.number literal, rest)

mutual

/-- One value. The fuel bounds how many values are read inside one another or in a row. -/
def value : Nat → Reader Value
  | 0, _ => none
  | fuel + 1, text =>
      match token '"' text, token '{' text, token '[' text with
      | some rest, _, _ => (string rest).map fun (s, rest) => (.string s, rest)
      | none, some rest, _ =>
          match token '}' rest with
          | some rest => some (.object [], rest)
          | none => (members fuel rest).map fun (ms, rest) => (.object ms, rest)
      | none, none, some rest =>
          match token ']' rest with
          | some rest => some (.array [], rest)
          | none => (items fuel rest).map fun (vs, rest) => (.array vs, rest)
      | none, none, none => scalar (skip text)

/-- The members of an object, one at least, and its closing brace. -/
def members : Nat → Reader (List (String × Value))
  | 0, _ => none
  | fuel + 1, text => do
      let rest ← token '"' text
      let (name, rest) ← string rest
      let rest ← token ':' rest
      let (v, rest) ← value fuel rest
      match token ',' rest with
      | some rest => (members fuel rest).map fun (more, rest) => ((name, v) :: more, rest)
      | none => (token '}' rest).map fun rest => ([(name, v)], rest)

/-- The items of an array, one at least, and its closing bracket. -/
def items : Nat → Reader (List Value)
  | 0, _ => none
  | fuel + 1, text => do
      let (v, rest) ← value fuel text
      match token ',' rest with
      | some rest => (items fuel rest).map fun (more, rest) => (v :: more, rest)
      | none => (token ']' rest).map fun rest => ([v], rest)

end

/-- The value that a whole text writes. Everything read takes a character at least, so its
length is fuel enough.
-/
def parse (text : String) : Option Value := do
  let (v, rest) ← value (text.toList.length + 1) text.toList
  if skip rest = [] then some v else none

-----------------------------------------------------------------------------------------
-- Strings that stand for themselves
-----------------------------------------------------------------------------------------

/-- (Plain c) says that `c` may stand between quotes and means itself there. -/
def Plain (c : Char) : Prop := c ≠ '"' ∧ c ≠ '\\' ∧ 0x20 ≤ c.toNat

instance : DecidablePred Plain := fun _ => inferInstanceAs (Decidable (_ ∧ _))

/-- (Unescaped s) says that no character of `s` needs an escape. -/
def Unescaped (s : List Char) : Prop := ∀ c ∈ s, Plain c

instance (s : List Char) : Decidable (Unescaped s) := List.decidableBAll Plain s

/-- Characters that need no escape are read as they are, by induction on them. -/
theorem pieces_unescaped {x : List Char} (plain : Unescaped x) (rest : List Char)
    : pieces .text (x ++ '"' :: rest) = some (x.map .char, rest) := by
  induction x with
  | nil => rfl
  | cons c x ih =>
      obtain ⟨⟨quote, backslash, printable⟩, plain⟩ := List.forall_mem_cons.mp plain
      rw [List.cons_append, pieces, if_neg quote, if_neg backslash, if_neg printable.not_gt,
        ih plain]
      rfl

theorem decode_chars (x : List Char) : decode (x.map .char) = x := by
  induction x with
  | nil => rfl
  | cons c x ih => rw [List.map_cons, decode, ih]

/-- Combining surrogates only shortens a string, by induction on its parts. -/
theorem decode_length (ps : List Piece) : (decode ps).length ≤ ps.length := by
  fun_induction decode ps with
  | case1 => exact le_rfl
  | case2 c ps ih => exact Nat.succ_le_succ ih
  | case3 high low ps pair ih => exact (Nat.succ_le_succ ih).trans (Nat.le_succ _)
  | case4 high low ps pair ih => exact Nat.succ_le_succ ih
  | case5 n ps single ih => exact Nat.succ_le_succ ih

/-- Strings of characters that need no escape. -/
theorem string_unescaped {x : List Char} (plain : Unescaped x) (rest : List Char)
    : string (x ++ '"' :: rest) = some (.ofList x, rest) := by
  rw [string, pieces_unescaped plain]
  exact congrArg (fun s => some (String.ofList s, rest)) (decode_chars x)

/-- A string takes a character for every part and its closing quote, by induction on the text. -/
theorem pieces_length {place : Place} {text rest : List Char} {ps : List Piece}
    (read : pieces place text = some (ps, rest))
    : ps.length + 1 + rest.length ≤ text.length := by
  induction text generalizing place ps with
  | nil => cases place <;> cases read
  | cons c text ih =>
      rw [List.length_cons]
      have next {p : Piece} (step : (pieces .text text).map
          (fun out => (p :: out.1, out.2)) = some (ps, rest))
          : ps.length + 1 + rest.length ≤ text.length + 1 := by
        obtain ⟨⟨ps', rest'⟩, there, same⟩ := Option.map_eq_some_iff.mp step
        cases same
        have shorter := ih there
        rw [List.length_cons]
        dsimp only at shorter ⊢
        omega
      cases place with
      | text =>
          rw [pieces] at read
          split_ifs at read
          · cases read
            exact (Nat.add_comm _ _).le
          · exact (ih read).trans (Nat.le_succ _)
          · exact next read
      | escape =>
          rw [pieces] at read
          split_ifs at read
          · exact (ih read).trans (Nat.le_succ _)
          · split at read
            · cases read
            · exact next read
      | unit left value =>
          rw [pieces.eq_def] at read
          dsimp only at read
          split at read
          · cases read
          · exact next read
          · exact (ih read).trans (Nat.le_succ _)

/-- One that takes no more has no escape, by induction on the text. -/
theorem pieces_tight {text rest : List Char} {ps : List Piece}
    (read : pieces .text text = some (ps, rest))
    (tight : ps.length + 1 + rest.length = text.length)
    : ∃ x, Unescaped x ∧ text = x ++ '"' :: rest := by
  induction text generalizing ps with
  | nil => cases read
  | cons c text ih =>
      rw [pieces] at read
      rw [List.length_cons] at tight
      split_ifs at read with quote backslash control
      · cases read
        exact ⟨[], nofun, by rw [quote]; rfl⟩
      · have longer := pieces_length read
        omega
      · obtain ⟨⟨ps', rest'⟩, there, same⟩ := Option.map_eq_some_iff.mp read
        cases same
        rw [List.length_cons] at tight
        obtain ⟨x, plain, rfl⟩ := ih there (by omega)
        exact ⟨c :: x, List.forall_mem_cons.mpr ⟨⟨quote, backslash, not_lt.mp control⟩, plain⟩, rfl⟩

/-- A string ends by the quote in front of `t`, or it reads on in `t`, wherever its reader stands; by
induction on the characters before the quote.
-/
theorem pieces_ends {place : Place} {x t rest : List Char} {ps : List Piece}
    (read : pieces place (x ++ '"' :: t) = some (ps, rest))
    : (∃ gone, gone ++ rest = x ++ '"' :: t ∧ t.length ≤ rest.length)
      ∨ ∃ ps', pieces .text t = some (ps', rest) := by
  induction x generalizing place ps with
  | nil =>
      cases place with
      | text =>
          cases read
          exact .inl ⟨['"'], rfl, le_rfl⟩
      | escape =>
          obtain ⟨⟨ps', rest'⟩, there, same⟩ := Option.map_eq_some_iff.mp read
          cases same
          exact .inr ⟨ps', there⟩
      | unit left value => cases left <;> cases read
  | cons c x ih =>
      have next {p : Piece} (step : (pieces .text (x ++ '"' :: t)).map
          (fun out => (p :: out.1, out.2)) = some (ps, rest))
          : (∃ gone, gone ++ rest = x ++ '"' :: t ∧ t.length ≤ rest.length)
            ∨ ∃ ps', pieces .text t = some (ps', rest) := by
        obtain ⟨⟨ps', rest'⟩, there, same⟩ := Option.map_eq_some_iff.mp step
        cases same
        exact ih there
      have longer (tail : (∃ gone, gone ++ rest = x ++ '"' :: t ∧ t.length ≤ rest.length)
          ∨ ∃ ps', pieces .text t = some (ps', rest))
          : (∃ gone, gone ++ rest = c :: x ++ '"' :: t ∧ t.length ≤ rest.length)
            ∨ ∃ ps', pieces .text t = some (ps', rest) :=
        tail.imp_left fun ⟨gone, split, long⟩ => ⟨c :: gone, congrArg (c :: ·) split, long⟩
      rw [List.cons_append] at read
      cases place with
      | text =>
          rw [pieces] at read
          split_ifs at read
          · cases read
            exact .inl ⟨[c], rfl, by simp; omega⟩
          · exact longer (ih read)
          · exact longer (next read)
      | escape =>
          rw [pieces] at read
          split_ifs at read
          · exact longer (ih read)
          · split at read
            · cases read
            · exact longer (next read)
      | unit left value =>
          rw [pieces.eq_def] at read
          dsimp only at read
          split at read
          · cases read
          · exact longer (next read)
          · exact longer (ih read)

/-- (Follows text) says that `text` may follow a member of an object. -/
def Follows (text : List Char) : Prop := (token ',' text).isSome ∨ (token '}' text).isSome

/-- (Guarded t) says that a string that reads on in `t` ends where no member may end. -/
def Guarded (t : List Char) : Prop :=
  ∀ ps rest, pieces .text t = some (ps, rest) → ¬Follows rest

/-- A text is guarded by its first quote. -/
theorem guarded_quote (front : List Char) {z : List Char} (plain : Unescaped front)
    (inside : ¬Follows z)
    : Guarded (front ++ '"' :: z) := by
  intro ps rest read
  rw [pieces_unescaped plain] at read
  cases read
  exact inside

/-- Characters between quotes are read as themselves only if they need no escape. -/
theorem string_itself {x t rest : List Char} {s : String}
    (read : string (x ++ '"' :: t) = some (s, rest)) (itself : s = .ofList x)
    (follows : Follows rest) (guarded : Guarded t)
    : Unescaped x ∧ rest = t := by
  obtain ⟨⟨ps, rest⟩, there, same⟩ := Option.bind_eq_some_iff.mp read
  cases same
  have whole : decode ps = x := String.ofList_injective itself
  rcases pieces_ends there with ⟨gone, split, long⟩ | ⟨ps', on⟩
  · have length := pieces_length there
    have shorter := decode_length ps
    rw [whole] at shorter
    rw [List.length_append, List.length_cons] at length
    have size : rest.length = t.length := by omega
    have closing : rest = t := (List.append_inj' (split.trans (by simp)
      : gone ++ rest = (x ++ ['"']) ++ t) size).2
    obtain ⟨y, plain, text⟩ := pieces_tight there (by
      rw [List.length_append, List.length_cons]
      omega)
    rw [closing] at text
    have same : x = y := (List.append_inj' text (by simp)).1
    exact ⟨same ▸ plain, closing⟩
  · exact absurd follows (guarded ps' rest on)

-----------------------------------------------------------------------------------------
-- Objects of strings
-----------------------------------------------------------------------------------------

/-- The text of a member whose value is a string, with nothing escaped. -/
def memberText (m : List Char × List Char) : List Char :=
  '"' :: m.1 ++ '"' :: ':' :: '"' :: m.2 ++ ['"']

/-- The texts of members with commas between them, up to the closing brace. -/
def membersText : List (List Char × List Char) → List Char
  | [] => ['}']
  | [m] => memberText m ++ ['}']
  | m :: next :: ms => memberText m ++ ',' :: membersText (next :: ms)

/-- The text of an object whose values are strings, with nothing escaped. -/
def objectText (ms : List (List Char × List Char)) : List Char := '{' :: membersText ms

/-- The members that such a text is meant to write. -/
def strings (ms : List (List Char × List Char)) : List (String × Value) :=
  ms.map fun m => (.ofList m.1, .string (.ofList m.2))

/-- (Named m) says that a member's name needs no escape and starts with no white space, comma or
brace.
-/
def Named (m : List Char × List Char) : Prop := Unescaped m.1 ∧ ∀ rest, ¬Follows (m.1 ++ rest)

variable {m : List Char × List Char} {ms : List (List Char × List Char)}

theorem memberText_append (m : List Char × List Char) (rest : List Char)
    : memberText m ++ rest = '"' :: m.1 ++ '"' :: ':' :: '"' :: (m.2 ++ '"' :: rest) := by
  simp [memberText]

/-- Members start with a quote and the first one's name. -/
theorem membersText_cons (m : List Char × List Char) (ms : List (List Char × List Char))
    : ∃ z, membersText (m :: ms) = '"' :: (m.1 ++ z) := by
  cases ms <;> exact ⟨_, by rw [membersText, memberText_append]; rfl⟩

/-- Every member takes characters, by induction on the members. -/
theorem membersText_length (ms : List (List Char × List Char))
    : ms.length ≤ (membersText ms).length := by
  induction ms with
  | nil => exact Nat.zero_le _
  | cons m ms ih =>
      cases ms with
      | nil => simp [membersText]
      | cons next ms =>
          rw [membersText, List.length_append, List.length_cons (a := m),
            List.length_cons (a := ',')]
          omega

/-- A member read on its own: its name, then the value after the colon. -/
theorem members_name (plain : Unescaped m.1) (fuel : Nat) (rest : List Char)
    : members (fuel + 2) (memberText m ++ rest)
      = (string (m.2 ++ '"' :: rest)).bind fun (s, rest) =>
        match token ',' rest with
        | some rest => (members (fuel + 1) rest).map fun (more, rest) =>
            ((.ofList m.1, .string s) :: more, rest)
        | none => (token '}' rest).map fun rest => ([(.ofList m.1, .string s)], rest) := by
  have quote (rest : List Char) : token '"' ('"' :: rest) = some rest := rfl
  have colon (rest : List Char) : token ':' (':' :: rest) = some rest := rfl
  have opened (text : List Char) : value (fuel + 1) ('"' :: text)
      = (string text).map fun (s, rest) => (.string s, rest) := rfl
  rw [memberText_append, members, List.cons_append, quote]
  simp only [string_unescaped plain, Option.bind_eq_bind, Option.bind_some, colon, opened]
  cases string (m.2 ++ '"' :: rest) <;> rfl

/-- Members with nothing to escape are read as they are written, by induction on them. -/
theorem members_strings (some_member : ms ≠ []) (named : ∀ m ∈ ms, Named m)
    (plain : ∀ m ∈ ms, Unescaped m.2) (fuel : Nat)
    : members (fuel + ms.length + 1) (membersText ms) = some (strings ms, []) := by
  induction ms with
  | nil => exact absurd rfl some_member
  | cons m ms ih =>
      obtain ⟨namedHere, namedLater⟩ := List.forall_mem_cons.mp named
      obtain ⟨plainHere, plainLater⟩ := List.forall_mem_cons.mp plain
      cases ms with
      | nil =>
          rw [membersText, List.length_singleton, members_name namedHere.1,
            string_unescaped plainHere]
          rfl
      | cons next ms =>
          have rest := ih (List.cons_ne_nil next ms) namedLater plainLater
          have fueled : fuel + (m :: next :: ms).length + 1
              = fuel + (next :: ms).length + 2 := rfl
          rw [membersText, fueled, members_name namedHere.1, string_unescaped plainHere]
          have comma : token ',' (',' :: membersText (next :: ms))
              = some (membersText (next :: ms)) := rfl
          simp only [Option.bind_some, comma, rest]
          rfl

/-- A first member that is read as it was written had nothing to escape, and the others are read
from the comma on.
-/
theorem members_first {t rest : List Char} {fuel : Nat} {more : List (String × Value)}
    (named : Unescaped m.1) (guarded : Guarded t)
    (read : members fuel (memberText m ++ t)
      = some ((.ofList m.1, .string (.ofList m.2)) :: more, rest))
    : Unescaped m.2
      ∧ ∀ later, token ',' t = some later → ∃ fuel', members fuel' later = some (more, rest) := by
  obtain ⟨fuel, rfl⟩ : ∃ n, fuel = n + 2 := by
    match fuel with
    | 0 => cases read
    | 1 =>
        rw [memberText_append, members] at read
        obtain ⟨_, -, read⟩ := Option.bind_eq_some_iff.mp read
        obtain ⟨_, -, read⟩ := Option.bind_eq_some_iff.mp read
        obtain ⟨_, -, read⟩ := Option.bind_eq_some_iff.mp read
        cases read
    | n + 2 => exact ⟨n, rfl⟩
  rw [members_name named] at read
  obtain ⟨⟨s, after⟩, first, read⟩ := Option.bind_eq_some_iff.mp read
  dsimp only at read
  cases comma : token ',' after with
  | some later =>
      rw [comma] at read
      obtain ⟨⟨others, rest⟩, second, same⟩ := Option.map_eq_some_iff.mp read
      cases same
      obtain ⟨plain, closing⟩ := string_itself first rfl (.inl (by rw [comma]; rfl)) guarded
      refine ⟨plain, fun later' next => ⟨fuel + 1, ?_⟩⟩
      rw [← closing, comma] at next
      cases next
      exact second
  | none =>
      rw [comma] at read
      obtain ⟨later, brace, same⟩ := Option.map_eq_some_iff.mp read
      cases same
      obtain ⟨plain, closing⟩ := string_itself first rfl (.inr (by rw [brace]; rfl)) guarded
      refine ⟨plain, fun later' next => ?_⟩
      rw [← closing, comma] at next
      cases next

/-- Members that are read as they were written had nothing to escape, by induction on them. -/
theorem members_itself (named : ∀ m ∈ ms, Named m) {fuel : Nat} {rest : List Char}
    (read : members fuel (membersText ms) = some (strings ms, rest))
    : ∀ m ∈ ms, Unescaped m.2 := by
  induction ms generalizing fuel with
  | nil => nofun
  | cons m ms ih =>
      obtain ⟨namedHere, namedLater⟩ := List.forall_mem_cons.mp named
      cases ms with
      | nil =>
          have guarded : Guarded ['}'] := nofun
          have plain := (members_first namedHere.1 guarded read).1
          exact List.forall_mem_cons.mpr ⟨plain, nofun⟩
      | cons next ms =>
          obtain ⟨z, text⟩ := membersText_cons next ms
          have guarded : Guarded (',' :: membersText (next :: ms)) := by
            rw [text]
            have comma : Unescaped [','] := List.forall_mem_singleton.mpr (by decide)
            exact guarded_quote [','] comma ((List.forall_mem_cons.mp namedLater).1.2 z)
          obtain ⟨plain, others⟩ := members_first namedHere.1 guarded read
          obtain ⟨fuel', later⟩ := others _ rfl
          exact List.forall_mem_cons.mpr ⟨plain, ih namedLater later⟩

/-- A text that is put together from members says them exactly when none has a character to
escape.
-/
theorem parse_objectText (some_member : ms ≠ []) (named : ∀ m ∈ ms, Named m)
    : parse (.ofList (objectText ms)) = some (.object (strings ms))
      ↔ ∀ m ∈ ms, Unescaped m.2 := by
  have opened (fuel : Nat) : value (fuel + 1) (objectText ms)
      = (members fuel (membersText ms)).map fun (ms, rest) => (.object ms, rest) := by
    cases ms with
    | nil => exact absurd rfl some_member
    | cons m ms =>
        obtain ⟨z, text⟩ := membersText_cons m ms
        rw [objectText, text]
        rfl
  unfold parse
  rw [String.toList_ofList, opened]
  constructor
  · intro read
    obtain ⟨⟨v, rest⟩, there, read⟩ := Option.bind_eq_some_iff.mp read
    obtain ⟨⟨found, rest'⟩, there, same⟩ := Option.map_eq_some_iff.mp there
    cases same
    dsimp only at read
    split_ifs at read
    cases read
    exact members_itself named there
  · intro plain
    obtain ⟨fuel, enough⟩ := Nat.exists_eq_add_of_le (membersText_length ms)
    have length : (objectText ms).length = fuel + ms.length + 1 := by
      rw [objectText, List.length_cons, enough, Nat.add_comm fuel]
    rw [length, members_strings some_member named plain]
    rfl

end Json
