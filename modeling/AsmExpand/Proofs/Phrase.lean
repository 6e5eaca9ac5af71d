import AsmExpand.Stream.Window
import AsmExpand.Text.Decimal

/-!
# Phrases

What nested calls mean, said without a stream. A phrase is a token that is neither
a separator nor a function token, or a well-formed call of a token function with
phrases inside it. `Phrase.tokens` is how a phrase is written, and
`Phrase.meaning` what it stands for: a plain token stands for itself, a window for
the part that it selects of what its phrases stand for, and a constant for the one
string that it makes.

`Phrase.Proper` says when a call can be completed: its counts are in range, the
parentheses of what a window selects from match, and the strings that are made or
given fit.
-/

namespace AsmExpand

/-! ## Arguments -/

/-- The places of the tokens that all calls have. -/
structure CallPlaces where
  name : Span := {}
  opening : Span := {}
  closing : Span := {}

namespace CallPlaces

/-- The parenthesis that opens a call. -/
def opener (places : CallPlaces) : Token := ⟨.leftParen, none, places.opening⟩

/-- What a call begins with. -/
def front (places : CallPlaces) (fn : TokenFunction) : List Token :=
  [⟨.call fn, none, places.name⟩, places.opener]

/-- The parenthesis that closes a call. -/
def close (places : CallPlaces) : Token := ⟨.rightParen, none, places.closing⟩

theorem fits_of_mem_front (settings : Settings) {places : CallPlaces} {fn : TokenFunction}
    {t : Token} (h : t ∈ places.front fn) :
    t.isTooLong settings.limits.maxStringLength = false := by
  simp only [front, List.mem_cons, List.not_mem_nil, or_false] at h
  rcases h with rfl | rfl
  · rfl
  · rfl

end CallPlaces

/-- A count or start argument, with the comma behind it. -/
structure CountArgument where
  value : Int64
  place : Span := {}
  comma : Span := {}

namespace CountArgument

def tokens (c : CountArgument) : List Token :=
  [⟨.int, some (.int c.value), c.place⟩, ⟨.comma, none, c.comma⟩]

def count (c : CountArgument) : Nat := c.value.toInt.toNat

def InRange (settings : Settings) (c : CountArgument) : Prop :=
  0 ≤ c.value ∧ c.value ≤ settings.limits.argumentLimit

theorem kind_of_mem_tokens {c : CountArgument} {t : Token} (h : t ∈ c.tokens) :
    t.kind = .int ∨ t.kind = .comma := by
  simp only [tokens, List.mem_cons, List.not_mem_nil, or_false] at h
  rcases h with rfl | rfl
  · exact Or.inl rfl
  · exact Or.inr rfl

end CountArgument

/-- Which tokens of its list a window keeps. -/
inductive Selection where
  | left (count : CountArgument)
  | mid (start count : CountArgument)
  | right (count : CountArgument)

namespace Selection

def function : Selection → TokenFunction
  | left _ => .left
  | mid _ _ => .mid
  | right _ => .right

def tokens : Selection → List Token
  | left count => count.tokens
  | mid start count => start.tokens ++ count.tokens
  | right count => count.tokens

/-- The first tokens, some tokens behind the first ones, or the last tokens. -/
def select : Selection → List Token → List Token
  | left count, ts => ts.take count.count
  | mid start count, ts => (ts.drop start.count).take count.count
  | right count, ts => ts.drop (ts.length - count.count)

def InRange (settings : Settings) : Selection → Prop
  | left count => count.InRange settings
  | mid start count => start.InRange settings ∧ count.InRange settings
  | right count => count.InRange settings

theorem select_sublist (w : Selection) (ts : List Token) : (w.select ts).Sublist ts := by
  cases w with
  | left count => exact List.take_sublist _ _
  | mid start count => exact (List.take_sublist _ _).trans (List.drop_sublist _ _)
  | right count => exact List.drop_sublist _ _

theorem kind_of_mem_tokens {w : Selection} {t : Token} (h : t ∈ w.tokens) :
    t.kind = .int ∨ t.kind = .comma := by
  cases w with
  | left count => exact CountArgument.kind_of_mem_tokens h
  | mid start count =>
    rcases List.mem_append.mp h with h | h
    · exact CountArgument.kind_of_mem_tokens h
    · exact CountArgument.kind_of_mem_tokens h
  | right count => exact CountArgument.kind_of_mem_tokens h

theorem function?_of_mem_tokens {w : Selection} {t : Token} (h : t ∈ w.tokens) :
    t.kind.function? = none := by
  rcases kind_of_mem_tokens h with hk | hk
  · rw [hk]
    rfl
  · rw [hk]
    rfl

end Selection

/-- What `.STRING` takes: a name, or a number. -/
inductive Spellable where
  | ident (name : String) (place : Span)
  | number (value : Int64) (place : Span)

namespace Spellable

def token : Spellable → Token
  | ident name place => ⟨.ident, some (.text name), place⟩
  | number value place => ⟨.int, some (.int value), place⟩

theorem function?_token (x : Spellable) : x.token.kind.function? = none := by
  cases x with
  | ident name place => rfl
  | number value place => rfl

/-- A name stands for itself, and a number for its decimal text. -/
def spelling : Spellable → String
  | ident name _ => name
  | number value _ => Decimal.ofInt64 value

end Spellable

/-! ## Conditions on lists of tokens -/

/-- The texts of the string constants among tokens, in one. -/
def joined (ts : List Token) : String :=
  String.join ((ts.filter fun t => decide (t.kind = .text)).map Token.text)

/-- String constants with single commas between them, one at least. -/
inductive CommaSeparated : List Token → Prop where
  | one {t : Token} : t.kind = .text → CommaSeparated [t]
  | more {t comma : Token} {ts : List Token} :
      t.kind = .text → comma.kind = .comma → CommaSeparated ts → CommaSeparated (t :: comma :: ts)

theorem joined_one {t : Token} (h : t.kind = .text) : joined [t] = t.text := by
  simp [joined, h, String.join]

theorem joined_more {t comma : Token} (h : t.kind = .text) (hc : comma.kind = .comma)
    (ts : List Token) : joined (t :: comma :: ts) = t.text ++ joined ts := by
  simp [joined, h, hc]

theorem joined_append (ts us : List Token) : joined (ts ++ us) = joined ts ++ joined us := by
  rw [joined, List.filter_append, List.map_append, String.join_append]
  rfl

theorem CommaSeparated.kind_of_mem {ts : List Token} (h : CommaSeparated ts) :
    ∀ t ∈ ts, t.kind = .text ∨ t.kind = .comma := by
  induction h with
  | one ht => exact fun x hx => by rw [List.mem_singleton.mp hx]; exact Or.inl ht
  | more ht hc _ ih =>
    simp only [List.forall_mem_cons]
    exact ⟨Or.inl ht, Or.inr hc, ih⟩

/-- The number of opening parentheses. -/
def openings (ts : List Token) : Nat := ts.countP fun t => decide (t.kind = .leftParen)

/-- The number of closing parentheses. -/
def closings (ts : List Token) : Nat := ts.countP fun t => decide (t.kind = .rightParen)

theorem openings_cons (t : Token) (ts : List Token) :
    openings (t :: ts) = openings ts + if t.kind = .leftParen then 1 else 0 := by
  simp [openings, List.countP_cons]

theorem closings_cons (t : Token) (ts : List Token) :
    closings (t :: ts) = closings ts + if t.kind = .rightParen then 1 else 0 := by
  simp [closings, List.countP_cons]

/-- How a token changes the depth, unless it closes what is not open. -/
theorem parensAfter_add {depth : Nat} {k : Kind} (h : ¬(k = .rightParen ∧ depth = 0)) :
    Advance.parensAfter depth k + (if k = .rightParen then 1 else 0)
      = depth + if k = .leftParen then 1 else 0 := by
  unfold Advance.parensAfter
  split
  · simp
  · simp only [true_and] at h
    simp only [reduceCtorEq, if_true, if_false]
    omega
  · rename_i hl hr
    rw [if_neg hl, if_neg hr]

/-- The parentheses match if `depth` of them are open before: none is closed that is
not open, and all are closed in the end. -/
structure BalancedFrom (depth : Nat) (ts : List Token) : Prop where
  opened : ∀ pre, pre <+: ts → closings pre ≤ depth + openings pre
  closed : closings ts = depth + openings ts

namespace BalancedFrom

variable {depth : Nat} {t : Token} {ts : List Token}

theorem depth_eq_zero (h : BalancedFrom depth []) : depth = 0 := by
  have hc : 0 = depth + 0 := h.closed
  omega

/-- A parenthesis is closed only if one is open. -/
theorem not_closing (h : BalancedFrom depth (t :: ts)) : ¬(t.kind = .rightParen ∧ depth = 0) := by
  intro hk
  have ho := h.opened [t] (by simp)
  simp [closings, openings, hk.1, hk.2] at ho

/-- Behind a token the parentheses match from the new depth on. -/
theorem tail (h : BalancedFrom depth (t :: ts)) :
    BalancedFrom (Advance.parensAfter depth t.kind) ts := by
  have hd := parensAfter_add h.not_closing
  constructor
  · intro pre hp
    have := h.opened (t :: pre) (by simpa using hp)
    rw [closings_cons, openings_cons] at this
    omega
  · have := h.closed
    rw [closings_cons, openings_cons] at this
    omega

end BalancedFrom

/-! ## Phrases and what they mean -/

inductive Phrase where
  | plain (t : Token)
  /-- `.LEFT`, `.MID` or `.RIGHT`. -/
  | window (places : CallPlaces) (selection : Selection) (inner : List Phrase)
  | concat (places : CallPlaces) (inner : List Phrase)
  | string (places : CallPlaces) (argument : Spellable)

namespace Phrase

mutual

/-- How a phrase is written. -/
def tokens : Phrase → List Token
  | plain t => [t]
  | window places selection inner =>
    places.front selection.function ++ selection.tokens ++ allTokens inner ++ [places.close]
  | concat places inner => places.front .concat ++ allTokens inner ++ [places.close]
  | string places argument => places.front .string ++ [argument.token] ++ [places.close]

def allTokens : List Phrase → List Token
  | [] => []
  | p :: ps => tokens p ++ allTokens ps

end

mutual

/-- What a phrase stands for. A constant stands where its call is closed. -/
def meaning : Phrase → List Token
  | plain t => [t]
  | window _ selection inner => selection.select (allMeaning inner)
  | concat places inner => [.ofText (joined (allMeaning inner)) places.closing]
  | string places argument => [.ofText argument.spelling places.closing]

def allMeaning : List Phrase → List Token
  | [] => []
  | p :: ps => meaning p ++ allMeaning ps

end

variable (settings : Settings)

mutual

/-- Whether every call can be completed. -/
def Proper : Phrase → Prop
  | plain t =>
    t.kind.function? = none ∧ t.kind.isSeparator = false ∧
      t.isTooLong settings.limits.maxStringLength = false
  | window _ selection inner =>
    selection.InRange settings ∧ AllProper inner ∧ BalancedFrom 0 (allMeaning inner)
  | concat _ inner =>
    AllProper inner ∧ CommaSeparated (allMeaning inner) ∧
      (joined (allMeaning inner)).utf8ByteSize ≤ settings.limits.maxStringLength
  | string _ argument => argument.spelling.utf8ByteSize ≤ settings.limits.maxStringLength

def AllProper : List Phrase → Prop
  | [] => True
  | p :: ps => Proper p ∧ AllProper ps

end

theorem allTokens_append (ps qs : List Phrase) :
    allTokens (ps ++ qs) = allTokens ps ++ allTokens qs := by
  induction ps with
  | nil => rfl
  | cons p ps ih => simp [allTokens, ih]

theorem allMeaning_append (ps qs : List Phrase) :
    allMeaning (ps ++ qs) = allMeaning ps ++ allMeaning qs := by
  induction ps with
  | nil => rfl
  | cons p ps ih => simp [allMeaning, ih]

theorem allTokens_plain (ts : List Token) : allTokens (ts.map plain) = ts := by
  induction ts with
  | nil => rfl
  | cons t ts ih => simp [allTokens, tokens, ih]

theorem allMeaning_plain (ts : List Token) : allMeaning (ts.map plain) = ts := by
  induction ts with
  | nil => rfl
  | cons t ts ih => simp [allMeaning, meaning, ih]

theorem AllProper.proper {ps : List Phrase} (h : AllProper settings ps) {p : Phrase} (hp : p ∈ ps) :
    p.Proper settings := by
  induction ps with
  | nil => cases hp
  | cons q ps ih =>
    rcases List.mem_cons.mp hp with rfl | hp
    · exact h.1
    · exact ih h.2 hp

/-! ## Their tokens -/

mutual

/-- Phrases stand for tokens inside a line that call nothing. -/
theorem Proper.inside : ∀ {p : Phrase}, p.Proper settings → ∀ {t : Token}, t ∈ p.meaning →
    t.kind.function? = none ∧ t.kind.isSeparator = false
  | plain _, h, t, ht => by
    rw [meaning, List.mem_singleton] at ht
    rw [ht]
    exact ⟨h.1, h.2.1⟩
  | window _ selection inner, h, t, ht =>
    AllProper.inside h.2.1 ((selection.select_sublist _).subset ht)
  | concat _ _, _, t, ht => by
    rw [meaning, List.mem_singleton] at ht
    rw [ht]
    exact ⟨rfl, rfl⟩
  | string _ _, _, t, ht => by
    rw [meaning, List.mem_singleton] at ht
    rw [ht]
    exact ⟨rfl, rfl⟩

theorem AllProper.inside : ∀ {ps : List Phrase}, AllProper settings ps → ∀ {t : Token},
    t ∈ allMeaning ps → t.kind.function? = none ∧ t.kind.isSeparator = false
  | [], _, t, ht => by cases ht
  | _ :: _, h, t, ht => by
    rw [allMeaning, List.mem_append] at ht
    rcases ht with ht | ht
    · exact Proper.inside h.1 ht
    · exact AllProper.inside h.2 ht

end

mutual

/-- No token of a phrase is a string constant that is too long. -/
theorem Proper.fits : ∀ {p : Phrase}, p.Proper settings → ∀ {t : Token}, t ∈ p.tokens →
    t.isTooLong settings.limits.maxStringLength = false
  | plain _, h, t, ht => by
    rw [tokens, List.mem_singleton] at ht
    rw [ht]
    exact h.2.2
  | window _ selection inner, h, t, ht => by
    simp only [tokens, List.mem_append, List.mem_singleton, or_assoc] at ht
    rcases ht with ht | ht | ht | rfl
    · exact CallPlaces.fits_of_mem_front settings ht
    · refine Token.isTooLong_of_kind_ne ?_ _
      rcases Selection.kind_of_mem_tokens ht with hk | hk
      · simp [hk]
      · simp [hk]
    · exact AllProper.fits h.2.1 ht
    · rfl
  | concat _ inner, h, t, ht => by
    simp only [tokens, List.mem_append, List.mem_singleton, or_assoc] at ht
    rcases ht with ht | ht | rfl
    · exact CallPlaces.fits_of_mem_front settings ht
    · exact AllProper.fits h.1 ht
    · rfl
  | string _ argument, h, t, ht => by
    simp only [tokens, List.mem_append, List.mem_singleton, or_assoc] at ht
    rcases ht with ht | rfl | rfl
    · exact CallPlaces.fits_of_mem_front settings ht
    · cases argument with
      | ident name place => rfl
      | number value place => rfl
    · rfl

theorem AllProper.fits : ∀ {ps : List Phrase}, AllProper settings ps → ∀ {t : Token},
    t ∈ allTokens ps → t.isTooLong settings.limits.maxStringLength = false
  | [], _, t, ht => by cases ht
  | _ :: _, h, t, ht => by
    rw [allTokens, List.mem_append] at ht
    rcases ht with ht | ht
    · exact Proper.fits h.1 ht
    · exact AllProper.fits h.2 ht

end

end Phrase

end AsmExpand
