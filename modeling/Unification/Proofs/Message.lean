import Mathlib.Data.List.Basic
import Unification.Ty.Error

namespace Unification

/-- The characters that may follow a type in a message. -/
def delimiters : List Char :=
  " ,)`".toList

/-- What may follow a type in a message: nothing, or a delimiter and more. -/
def Delimited (rest : List Char) : Prop :=
  ∀ c ∈ rest.head?, c ∈ delimiters

/-- What may follow the last type of a list: a delimiter other than the comma. -/
def Closing (rest : List Char) : Prop :=
  ∃ c ∈ rest.head?, c ∈ delimiters ∧ c ≠ ','

theorem Closing.delimited {rest : List Char} (h : Closing rest) : Delimited rest := by
  obtain ⟨c, hc, hdelimiter, -⟩ := h
  intro other hother
  rw [Option.mem_def] at hc hother
  rw [hc] at hother
  cases hother
  exact hdelimiter

theorem delimited_append {text : String} (h : text.toList.head?.any (· ∈ delimiters) = true)
    (rest : List Char) : Delimited (text.toList ++ rest) := by
  obtain ⟨c, hc, hdelimiter⟩ := (Option.any_eq_true _ _).mp h
  intro other hother
  rw [List.head?_append, hc] at hother
  cases hother
  exact of_decide_eq_true hdelimiter

/-- A word ends before the first character that it cannot have. -/
theorem word_append_injective (allowed : Char → Bool) {word word' rest rest' : List Char}
    (hword : ∀ c ∈ word, allowed c = true) (hword' : ∀ c ∈ word', allowed c = true)
    (hrest : ∀ c ∈ rest.head?, allowed c = false) (hrest' : ∀ c ∈ rest'.head?, allowed c = false)
    (h : word ++ rest = word' ++ rest') : word = word' ∧ rest = rest' := by
  have htake : ∀ {rest : List Char}, (∀ c ∈ rest.head?, allowed c = false) →
      rest.takeWhile allowed = [] := by
    intro rest hrest
    cases rest with
    | nil => rfl
    | cons c rest => exact List.takeWhile_cons_of_neg (by simp [hrest c rfl])
  have hsame := congrArg (List.takeWhile allowed) h
  rw [List.takeWhile_append_of_pos hword, List.takeWhile_append_of_pos hword', htake hrest,
    htake hrest', List.append_nil, List.append_nil] at hsame
  subst hsame
  exact ⟨rfl, List.append_cancel_left h⟩

theorem not_isDigit_of_delimiter {c : Char} (h : c ∈ delimiters) : c.isDigit = false := by
  have hall : delimiters.all (!·.isDigit) = true := by decide
  simpa using List.all_eq_true.mp hall c h

/-- A number ends before the first character that is no digit. -/
theorem number_append_injective {n m : Nat} {rest rest' : List Char} (hrest : Delimited rest)
    (hrest' : Delimited rest') (h : n.repr.toList ++ rest = m.repr.toList ++ rest') :
    n = m ∧ rest = rest' := by
  have hdigits : ∀ n : Nat, ∀ c ∈ Nat.toDigits 10 n, c.isDigit = true := fun n c =>
    Nat.isDigit_of_mem_toDigits (by decide) (by decide)
  rw [Nat.toList_repr, Nat.toList_repr] at h
  obtain ⟨hsame, hend⟩ := word_append_injective Char.isDigit (hdigits n) (hdigits m)
    (fun c hc => not_isDigit_of_delimiter (hrest c hc))
    (fun c hc => not_isDigit_of_delimiter (hrest' c hc)) h
  refine ⟨?_, hend⟩
  have hread : ∀ n : Nat, Nat.ofDigitChars 10 (Nat.toDigits 10 n) 0 = n := fun n =>
    Nat.ofDigitChars_toDigits (by decide) (by decide)
  rw [← hread n, hsame, hread]

/-- A name without delimiters ends before the first of them. -/
theorem name_append_injective {name other : String} {rest rest' : List Char}
    (hname : name.toList.all (· ∉ delimiters) = true)
    (hother : other.toList.all (· ∉ delimiters) = true) (hrest : Delimited rest)
    (hrest' : Delimited rest') (h : name.toList ++ rest = other.toList ++ rest') :
    name = other ∧ rest = rest' := by
  obtain ⟨hsame, hend⟩ := word_append_injective (· ∉ delimiters) (List.all_eq_true.mp hname)
    (List.all_eq_true.mp hother) (fun c hc => decide_eq_false (not_not_intro (hrest c hc)))
    (fun c hc => decide_eq_false (not_not_intro (hrest' c hc))) h
  exact ⟨String.toList_inj.mp hsame, hend⟩

namespace Ty

mutual

/-- Whether no name of an enum in a type has a delimiter. -/
def plain : Ty → Bool
  | enum name => name.toList.all (· ∉ delimiters)
  | fn params ret => plainAll params && plain ret
  | struct fields => plainAll fields
  | union variants => plainAll variants
  | _ => true

def plainAll : List Ty → Bool
  | [] => true
  | t :: rest => plain t && plainAll rest

end

/-- What the text of a type begins with, which tells its kind. -/
def keyword : Ty → String
  | int => "int"
  | float => "float"
  | string => "string"
  | qubit => "qubit"
  | angle => "angle"
  | duration => "duration"
  | enum _ => "enum "
  | var _ => "?T"
  | fn .. => "fn("
  | struct _ => "struct \x7b "
  | union _ => "union \x7b "

/-- What follows the keyword in the text of a type. -/
def remainder : Ty → String
  | enum name => name
  | var v => v.id.repr
  | fn params ret => textAll params ++ ") -> " ++ text ret
  | struct fields | union fields => textAll fields ++ " \x7d"
  | _ => ""

def keywords : List String :=
  ["int", "float", "string", "qubit", "angle", "duration", "enum ", "?T", "fn(", "struct \x7b ",
    "union \x7b "]

/-- What follows a type in a list, up to the end of the list. -/
def textRest : List Ty → String
  | [] => ""
  | t :: rest => ", " ++ textAll (t :: rest)

theorem text_eq (t : Ty) : t.text = t.keyword ++ t.remainder := by
  cases t <;> simp [text, keyword, remainder, TypeVar.text, String.append_assoc, toString]

theorem textAll_cons (t : Ty) (rest : List Ty) : textAll (t :: rest) = t.text ++ textRest rest := by
  cases rest with
  | nil => simp [textAll, textRest]
  | cons u rest => simp [textAll, textRest, String.append_assoc]

theorem keyword_mem (t : Ty) : t.keyword ∈ keywords := by
  cases t <;> simp [keyword, keywords]

theorem keywords_prefix_free :
    ∀ a ∈ keywords, ∀ b ∈ keywords, a.toList <+: b.toList → a = b := by
  decide

/-- No type begins with a delimiter. -/
theorem keywords_head : ∀ a ∈ keywords, a.toList.head?.any (· ∉ delimiters) = true := by
  decide

/-- Where the texts of two types are followed by something and come to the same,
    the types are of one kind, and what follows their keywords is the same. -/
theorem remainder_eq {t u : Ty} {rest rest' : List Char}
    (h : t.text.toList ++ rest = u.text.toList ++ rest') :
    t.keyword = u.keyword ∧ t.remainder.toList ++ rest = u.remainder.toList ++ rest' := by
  rw [text_eq, text_eq, String.toList_append, String.toList_append, List.append_assoc,
    List.append_assoc] at h
  have hsame : t.keyword = u.keyword := by
    have hprefix : t.keyword.toList <+: u.keyword.toList ++ (u.remainder.toList ++ rest') :=
      ⟨_, h⟩
    rcases List.prefix_or_prefix_of_prefix hprefix (List.prefix_append _ _) with hless | hless
    · exact keywords_prefix_free _ t.keyword_mem _ u.keyword_mem hless
    · exact (keywords_prefix_free _ u.keyword_mem _ t.keyword_mem hless).symm
  rw [hsame] at h
  exact ⟨hsame, List.append_cancel_left h⟩

/-- A list that is not empty does not close right away. -/
theorem not_closing_textAll_cons (t : Ty) (ts : List Ty) (rest : List Char) :
    ¬ Closing ((textAll (t :: ts)).toList ++ rest) := by
  rintro ⟨c, hc, hdelimiter, -⟩
  obtain ⟨first, hfirst, hletter⟩ := (Option.any_eq_true _ _).mp (keywords_head _ t.keyword_mem)
  rw [textAll_cons, text_eq, String.toList_append, String.toList_append, List.append_assoc,
    List.append_assoc, List.head?_append, hfirst] at hc
  cases hc
  exact of_decide_eq_true hletter hdelimiter

theorem delimited_textRest {rest : List Char} (hrest : Closing rest) (ts : List Ty) :
    Delimited ((textRest ts).toList ++ rest) := by
  cases ts with
  | nil => simpa [textRest] using hrest.delimited
  | cons t ts =>
    rw [textRest, String.toList_append, List.append_assoc]
    exact delimited_append (by decide) _

theorem not_closing_textRest_cons (t : Ty) (ts : List Ty) (rest : List Char) :
    ¬ Closing ((textRest (t :: ts)).toList ++ rest) := by
  rintro ⟨c, hc, -, hcomma⟩
  rw [textRest, String.toList_append] at hc
  cases hc
  exact hcomma rfl

theorem closing_arrow (rest : List Char) : Closing (") -> ".toList ++ rest) :=
  ⟨')', rfl, by decide, by decide⟩

theorem closing_brace (rest : List Char) : Closing (" \x7d".toList ++ rest) :=
  ⟨' ', rfl, by decide, by decide⟩

/-- A list of types is empty if its text closes right away, and goes on like the
    rest of a longer one if it does not. -/
theorem textRest_eq_of_textAll {ts us : List Ty} {rest rest' : List Char} (hrest : Closing rest)
    (hrest' : Closing rest') (h : (textAll ts).toList ++ rest = (textAll us).toList ++ rest') :
    (textRest ts).toList ++ rest = (textRest us).toList ++ rest' := by
  cases ts with
  | nil =>
    cases us with
    | nil => exact h
    | cons u us =>
      simp only [textAll, String.toList_empty, List.nil_append] at h
      exact absurd (h ▸ hrest) (not_closing_textAll_cons u us rest')
  | cons t ts =>
    cases us with
    | nil =>
      simp only [textAll, String.toList_empty, List.nil_append] at h
      exact absurd (h ▸ hrest') (not_closing_textAll_cons t ts rest)
    | cons u us =>
      rw [textRest, textRest, String.toList_append, String.toList_append, List.append_assoc,
        List.append_assoc, h]

mutual

/-- The text of a type tells the type, and where in a message it ends. -/
theorem text_append_injective : ∀ (t u : Ty) {rest rest' : List Char}, t.plain →
    u.plain → Delimited rest → Delimited rest' →
    t.text.toList ++ rest = u.text.toList ++ rest' → t = u ∧ rest = rest'
  | int, u, _, _, _, _, _, _, h | float, u, _, _, _, _, _, _, h
  | string, u, _, _, _, _, _, _, h | qubit, u, _, _, _, _, _, _, h
  | angle, u, _, _, _, _, _, _, h | duration, u, _, _, _, _, _, _, h => by
    obtain ⟨hkeyword, hsame⟩ := remainder_eq h
    cases u <;> simp [keyword] at hkeyword
    exact ⟨rfl, hsame⟩
  | enum name, u, rest, rest', ht, hu, hrest, hrest', h => by
    obtain ⟨hkeyword, hsame⟩ := remainder_eq h
    cases u with
    | enum other =>
      obtain ⟨hname, hend⟩ := name_append_injective ht hu hrest hrest' hsame
      exact ⟨congrArg enum hname, hend⟩
    | _ => simp [keyword] at hkeyword
  | var v, u, rest, rest', _, _, hrest, hrest', h => by
    obtain ⟨hkeyword, hsame⟩ := remainder_eq h
    cases u with
    | var other =>
      obtain ⟨hid, hend⟩ := number_append_injective hrest hrest' hsame
      exact ⟨congrArg (fun id => var ⟨id⟩) hid, hend⟩
    | _ => simp [keyword] at hkeyword
  | fn params ret, u, rest, rest', ht, hu, hrest, hrest', h => by
    obtain ⟨hkeyword, hsame⟩ := remainder_eq h
    cases u with
    | fn params' ret' =>
      simp only [plain, Bool.and_eq_true] at ht hu
      -- The parameters end at the arrow, but the result ends where the whole type does.
      simp only [remainder, String.toList_append, List.append_assoc] at hsame
      obtain ⟨hparams, hret⟩ := textRest_append_injective params params' ht.1 hu.1
        (closing_arrow _) (closing_arrow _)
        (textRest_eq_of_textAll (closing_arrow _) (closing_arrow _) hsame)
      obtain ⟨hsameRet, hend⟩ := text_append_injective ret ret' ht.2 hu.2 hrest hrest'
        (List.append_cancel_left hret)
      exact ⟨by rw [hparams, hsameRet], hend⟩
    | _ => simp [keyword] at hkeyword
  | struct fields, u, rest, rest', ht, hu, _, _, h => by
    obtain ⟨hkeyword, hsame⟩ := remainder_eq h
    cases u with
    | struct fields' =>
      simp only [remainder, String.toList_append, List.append_assoc] at hsame
      obtain ⟨hfields, hend⟩ := textRest_append_injective fields fields' ht hu (closing_brace _)
        (closing_brace _) (textRest_eq_of_textAll (closing_brace _) (closing_brace _) hsame)
      exact ⟨by rw [hfields], List.append_cancel_left hend⟩
    | _ => simp [keyword] at hkeyword
  | union variants, u, rest, rest', ht, hu, _, _, h => by
    obtain ⟨hkeyword, hsame⟩ := remainder_eq h
    cases u with
    | union variants' =>
      simp only [remainder, String.toList_append, List.append_assoc] at hsame
      obtain ⟨hvariants, hend⟩ := textRest_append_injective variants variants' ht hu
        (closing_brace _) (closing_brace _)
        (textRest_eq_of_textAll (closing_brace _) (closing_brace _) hsame)
      exact ⟨by rw [hvariants], List.append_cancel_left hend⟩
    | _ => simp [keyword] at hkeyword

theorem textRest_append_injective : ∀ (ts us : List Ty) {rest rest' : List Char},
    plainAll ts = true → plainAll us = true → Closing rest → Closing rest' →
    (textRest ts).toList ++ rest = (textRest us).toList ++ rest' → ts = us ∧ rest = rest'
  | [], us, rest, rest', _, _, hrest, _, h => by
    cases us with
    | nil => exact ⟨rfl, h⟩
    | cons u us => exact absurd (h ▸ hrest) (not_closing_textRest_cons u us rest')
  | t :: ts, us, rest, rest', hts, hus, hrest, hrest', h => by
    cases us with
    | nil => exact absurd (h ▸ hrest') (not_closing_textRest_cons t ts rest)
    | cons u us =>
      simp only [plainAll, Bool.and_eq_true] at hts hus
      rw [textRest, textRest, String.toList_append, String.toList_append, List.append_assoc,
        List.append_assoc] at h
      have hsame := List.append_cancel_left h
      -- What follows the first type is the rest of the list, and may be empty.
      rw [textAll_cons, textAll_cons, String.toList_append, String.toList_append,
        List.append_assoc, List.append_assoc] at hsame
      obtain ⟨hfirst, hmore⟩ := text_append_injective t u hts.1 hus.1
        (delimited_textRest hrest ts) (delimited_textRest hrest' us) hsame
      obtain ⟨hothers, hend⟩ := textRest_append_injective ts us hts.2 hus.2 hrest hrest' hmore
      exact ⟨by rw [hfirst, hothers], hend⟩

end

end Ty

theorem TypeMismatch.text_append_injective {mismatch other : TypeMismatch} {rest rest' : List Char}
    (hexpected : mismatch.expected.plain) (hfound : mismatch.found.plain)
    (hexpected' : other.expected.plain) (hfound' : other.found.plain)
    (h : mismatch.text.toList ++ rest = other.text.toList ++ rest') :
    mismatch = other ∧ rest = rest' := by
  obtain ⟨expected, found⟩ := mismatch
  obtain ⟨expected', found'⟩ := other
  simp only [text, String.toList_append, List.append_assoc] at h
  have hmiddle : ∀ rest, Delimited ("`, found `".toList ++ rest) := delimited_append (by decide)
  have hlast : ∀ rest, Delimited ("`".toList ++ rest) := delimited_append (by decide)
  obtain ⟨rfl, hrest⟩ := Ty.text_append_injective _ _ hexpected hexpected' (hmiddle _) (hmiddle _)
    (List.append_cancel_left h)
  obtain ⟨rfl, hend⟩ := Ty.text_append_injective _ _ hfound hfound' (hlast _) (hlast _)
    (List.append_cancel_left hrest)
  exact ⟨rfl, List.append_cancel_left hend⟩

theorem NodeId.text_eq (node : NodeId) : node.text = "#" ++ node.id.repr :=
  rfl

/-- Messages about types are not ambiguous, as long as the names of enums have no
    delimiters in them. Types with the same text are the same, however deep they
    are nested. So no message shows two different types in the same way, and
    errors with the same message are about the same types and the same node. -/
theorem TypeError.message_unambiguous :
    (∀ t u : Ty, t.plain → u.plain → t.text = u.text → t = u) ∧
    (∀ mismatch : TypeMismatch, mismatch.expected.plain → mismatch.found.plain →
      mismatch.expected ≠ mismatch.found → mismatch.expected.text ≠ mismatch.found.text) ∧
    ∀ error other : TypeError,
      error.mismatch.expected.plain → error.mismatch.found.plain →
      other.mismatch.expected.plain → other.mismatch.found.plain →
      error.message = other.message →
        error.mismatch.expected = other.mismatch.expected ∧
        error.mismatch.found = other.mismatch.found ∧
        error.provenance.node = other.provenance.node := by
  have htext : ∀ t u : Ty, t.plain → u.plain → t.text = u.text → t = u := by
    intro t u ht hu h
    have hend : Delimited [] := nofun
    exact (Ty.text_append_injective t u ht hu hend hend (by rw [h])).1
  refine ⟨htext, fun mismatch hexpected hfound hne hsame =>
    hne (htext _ _ hexpected hfound hsame), ?_⟩
  intro error other hexpected hfound hexpected' hfound' h
  have hletters := congrArg String.toList h
  simp only [message, String.toList_append, List.append_assoc] at hletters
  obtain ⟨hmismatch, hplace⟩ :=
    TypeMismatch.text_append_injective hexpected hfound hexpected' hfound' hletters
  have hnode := List.append_cancel_left hplace
  rw [NodeId.text_eq, NodeId.text_eq, String.toList_append, String.toList_append,
    List.append_assoc, List.append_assoc] at hnode
  have hend : Delimited (")".toList ++ []) := delimited_append (by decide) []
  obtain ⟨hid, -⟩ := number_append_injective hend hend (List.append_cancel_left hnode)
  exact ⟨congrArg TypeMismatch.expected hmismatch, congrArg TypeMismatch.found hmismatch,
    congrArg NodeId.mk hid⟩

/-- A name with a comma in it looks like two types. -/
example : (Ty.struct [.enum "a, int"]).text = (Ty.struct [.enum "a", .int]).text := by
  decide

/-- Functions that return functions, lists within lists, empty ones among them,
    and an error about another kind of constraint of the same node. -/
theorem TypeError.message_unambiguous_nested :
    let expected : Ty := .fn [.fn [] .int, .struct []] (.fn [.union [.enum "", .var ⟨12⟩]] .int)
    let found : Ty := .fn [.fn [] (.fn [.int, .struct []] (.union [.enum "", .var ⟨1⟩]))] .int
    let error : TypeError := ⟨.unexpectedFun ⟨7⟩, ⟨expected, found⟩⟩
    let other : TypeError := ⟨.expectedUnify ⟨7⟩, ⟨expected, found⟩⟩
    expected.plain ∧ found.plain ∧ expected ≠ found ∧ expected.text ≠ found.text ∧
      error.message = other.message ∧ error.mismatch.expected = other.mismatch.expected ∧
      error.mismatch.found = other.mismatch.found ∧
      error.provenance.node = other.provenance.node := by
  intro expected found error other
  have hexpected : expected.plain := by decide
  have hfound : found.plain := by decide
  have hne : expected ≠ found := by decide
  have hmessage : error.message = other.message := rfl
  exact ⟨hexpected, hfound, hne, TypeError.message_unambiguous.2.1 ⟨expected, found⟩ hexpected
    hfound hne, hmessage, TypeError.message_unambiguous.2.2 error other hexpected hfound hexpected
      hfound hmessage⟩

end Unification
