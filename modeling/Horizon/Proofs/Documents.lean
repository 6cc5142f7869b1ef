import Mathlib.Data.List.TakeDrop
import Horizon.Json.Reader

/-! Documents are read as they were written.

Every reader takes an item off the front of a text, so what is shown of it speaks of the item in
front of any continuation. A number goes as far as its characters do: it is read back when the
continuation is empty or goes on with a comma or a closing bracket, as it does in a compact
document. So the compact form of a value whose parts are written as they may be (`WellFormed`) is
read as the value itself (`read?_render`).
-/

set_option autoImplicit false

namespace Horizon.Json

section Digits

/-- The text is at its end, or goes on with one of some characters. -/
def GoesOn (marks : List Char) (text : Octets) : Prop :=
  ∀ c ∈ text.head?, c ∈ marks

def closers : List Char :=
  [',', ']', '}']

theorem GoesOn.cons {marks : List Char} {c : Char} (mark : c ∈ marks) (text : Octets) :
    GoesOn marks (c :: text) := by
  simpa [GoesOn] using mark

theorem GoesOn.widen {marks : List Char} {c : Char} {text : Octets} (ends : GoesOn marks text) :
    GoesOn (c :: marks) text :=
  fun d first => List.mem_cons_of_mem c (ends d first)

structure IsDigits (ds : Octets) : Prop where
  nonempty : ds ≠ []
  digits : ∀ c ∈ ds, c.isDigit = true

theorem span_append {p : Char → Bool} {front rest : Octets} (all : ∀ c ∈ front, p c = true)
    (stops : ∀ c ∈ rest.head?, p c = false) : (front ++ rest).span p = (front, rest) := by
  have ends : rest.takeWhile p = [] ∧ rest.dropWhile p = rest := by
    cases rest with
    | nil => exact ⟨rfl, rfl⟩
    | cons c rest => simp [stops c rfl]
  rw [List.span_eq_takeWhile_dropWhile, List.takeWhile_append_of_pos all,
    List.dropWhile_append_of_pos all, ends.1, ends.2, List.append_nil]

theorem readDigits_append {ds rest : Octets} (row : IsDigits ds)
    (stops : ∀ c ∈ rest.head?, c.isDigit = false) : readDigits (ds ++ rest) = some (ds, rest) := by
  rw [readDigits, span_append row.digits stops]
  cases ds with
  | nil => exact absurd rfl row.nonempty
  | cons d ds => rfl

end Digits

section Numbers

inductive IsFraction : Octets → Prop where
  | absent : IsFraction []
  | present {ds : Octets} (row : IsDigits ds) : IsFraction ('.' :: ds)

inductive IsSignedDigits : Octets → Prop where
  | unsigned {ds : Octets} (row : IsDigits ds) : IsSignedDigits ds
  | signed {ds : Octets} {sign : Char} (known : sign = '+' ∨ sign = '-') (row : IsDigits ds) :
    IsSignedDigits (sign :: ds)

inductive IsExponent : Octets → Prop where
  | absent : IsExponent []
  | present {ds : Octets} {mark : Char} (known : mark = 'e' ∨ mark = 'E')
    (row : IsSignedDigits ds) : IsExponent (mark :: ds)

structure IsWhole (ds : Octets) : Prop extends IsDigits ds where
  leading : ds.head? = some '0' → ds.length ≤ 1

inductive IsMagnitude : Octets → Prop where
  | intro {whole fraction exponent : Octets} (isWhole : IsWhole whole)
    (isFraction : IsFraction fraction) (isExponent : IsExponent exponent) :
    IsMagnitude (whole ++ fraction ++ exponent)

inductive IsNumber : Octets → Prop where
  | unsigned {ds : Octets} (isMagnitude : IsMagnitude ds) : IsNumber ds
  | negative {ds : Octets} (isMagnitude : IsMagnitude ds) : IsNumber ('-' :: ds)

variable {whole fraction exponent rest : Octets}

theorem IsExponent.goesOn (isExponent : IsExponent exponent) (ends : GoesOn closers rest) :
    GoesOn ('e' :: 'E' :: closers) (exponent ++ rest) := by
  cases isExponent with
  | absent => exact ends.widen.widen
  | present known _ => exact .cons (by rcases known with rfl | rfl <;> simp) _

theorem IsFraction.goesOn (isFraction : IsFraction fraction)
    (ends : GoesOn ('e' :: 'E' :: closers) rest) :
    GoesOn ('.' :: 'e' :: 'E' :: closers) (fraction ++ rest) := by
  cases isFraction with
  | absent => exact ends.widen
  | present _ => exact .cons List.mem_cons_self _

theorem GoesOn.isDigit_eq_false (ends : GoesOn ('.' :: 'e' :: 'E' :: closers) rest) :
    ∀ c ∈ rest.head?, c.isDigit = false := by
  have others : ∀ c ∈ '.' :: 'e' :: 'E' :: closers, c.isDigit = false := by simp [closers]
  exact fun c first => others c (ends c first)

theorem readFraction_append (isFraction : IsFraction fraction)
    (ends : GoesOn ('e' :: 'E' :: closers) rest) :
    readPart (· = '.') readDigits (fraction ++ rest) = some (fraction, rest) := by
  cases isFraction with
  | absent =>
    cases rest with
    | nil => rfl
    | cons c rest =>
      have other : c ≠ '.' := by
        rintro rfl
        exact absurd (ends '.' rfl) (by decide)
      simp [readPart, other]
  | present row =>
    have read := readDigits_append row ends.widen.isDigit_eq_false
    simp [readPart, read]

theorem readSignedDigits_append {ds : Octets} (row : IsSignedDigits ds)
    (ends : GoesOn closers rest) : readSignedDigits (ds ++ rest) = some (ds, rest) := by
  have stops := ends.widen.widen.widen.isDigit_eq_false
  cases row with
  | signed known row =>
    have read := readDigits_append row stops
    rcases known with rfl | rfl <;> simp [readSignedDigits, read]
  | unsigned row =>
    have read := readDigits_append row stops
    obtain ⟨nonempty, digits⟩ := row
    cases ds with
    | nil => exact absurd rfl nonempty
    | cons d ds =>
      have digit := digits d List.mem_cons_self
      have plus : d ≠ '+' := by
        rintro rfl
        exact absurd digit (by decide)
      have minus : d ≠ '-' := by
        rintro rfl
        exact absurd digit (by decide)
      rw [List.cons_append] at read ⊢
      simpa [readSignedDigits, plus, minus] using read

theorem readExponent_append (isExponent : IsExponent exponent) (ends : GoesOn closers rest) :
    readPart (fun c => c = 'e' || c = 'E') readSignedDigits (exponent ++ rest) =
      some (exponent, rest) := by
  cases isExponent with
  | absent =>
    cases rest with
    | nil => rfl
    | cons c rest =>
      have other : c ≠ 'e' ∧ c ≠ 'E' := by
        constructor <;> rintro rfl <;> exact absurd (ends _ rfl) (by decide)
      simp [readPart, other]
  | present known row =>
    have read := readSignedDigits_append row ends
    simp [readPart, known, read]

theorem readMagnitude_append {ds : Octets} (isMagnitude : IsMagnitude ds)
    (ends : GoesOn closers rest) : readMagnitude (ds ++ rest) = some (ds, rest) := by
  cases isMagnitude with
  | @intro whole fraction exponent isWhole isFraction isExponent =>
    have afterFraction := isExponent.goesOn ends
    have digits := readDigits_append isWhole.toIsDigits
      (isFraction.goesOn afterFraction).isDigit_eq_false
    have short : ¬(whole.head? = some '0' ∧ 1 < whole.length) := by
      rintro ⟨zero, long⟩
      exact absurd (isWhole.leading zero) (Nat.not_le_of_lt long)
    rw [List.append_assoc, List.append_assoc, readMagnitude]
    simp [digits, short, readFraction_append isFraction afterFraction,
      readExponent_append isExponent ends]

theorem IsMagnitude.head {ds : Octets} (isMagnitude : IsMagnitude ds) :
    ∃ d text, ds = d :: text ∧ d.isDigit = true := by
  cases isMagnitude with
  | @intro whole fraction exponent isWhole _ _ =>
    obtain ⟨nonempty, digits⟩ := isWhole.toIsDigits
    cases whole with
    | nil => exact absurd rfl nonempty
    | cons d ds => exact ⟨d, ds ++ fraction ++ exponent, rfl, digits d List.mem_cons_self⟩

theorem IsNumber.head {numeral : Octets} (isNumber : IsNumber numeral) :
    ∃ c text, numeral = c :: text ∧ (c = '-' ∨ c.isDigit = true) := by
  cases isNumber with
  | negative _ => exact ⟨'-', _, rfl, .inl rfl⟩
  | unsigned isMagnitude =>
    obtain ⟨d, text, begins, digit⟩ := isMagnitude.head
    exact ⟨d, text, begins, .inr digit⟩

theorem readNumber_append {numeral : Octets} (isNumber : IsNumber numeral)
    (ends : GoesOn closers rest) : readNumber (numeral ++ rest) = some (numeral, rest) := by
  cases isNumber with
  | negative isMagnitude => simp [readNumber, readMagnitude_append isMagnitude ends]
  | unsigned isMagnitude =>
    have read := readMagnitude_append isMagnitude ends
    obtain ⟨d, text, rfl, digit⟩ := isMagnitude.head
    have minus : d ≠ '-' := by
      rintro rfl
      exact absurd digit (by decide)
    rw [List.cons_append] at read ⊢
    simpa [readNumber, minus] using read

end Numbers

section Strings

inductive IsString : Octets → Prop where
  | empty : IsString []
  | plain {c : Char} {raw : Octets} (visible : ¬c < ' ') (quote : c ≠ '"') (slash : c ≠ '\\')
    (isString : IsString raw) : IsString (c :: raw)
  | escape {c : Char} {raw : Octets} (simple : isSimpleEscape c = true) (isString : IsString raw) :
    IsString ('\\' :: c :: raw)
  | codePoint {a b c d : Char} {raw : Octets}
    (hex : (isHexDigit a && isHexDigit b && isHexDigit c && isHexDigit d) = true)
    (isString : IsString raw) : IsString ('\\' :: 'u' :: a :: b :: c :: d :: raw)

theorem readString_append {raw : Octets} (isString : IsString raw) (rest : Octets) :
    readString (raw ++ '"' :: rest) = some (raw, rest) := by
  induction isString with
  | empty => rfl
  | plain visible _ slash _ ih => simp [readString, visible, slash, ih]
  | @escape c raw simple _ ih =>
    have other : c ≠ 'u' := by
      rintro rfl
      exact absurd simple (by decide)
    simp [readString, simple, other, ih]
  | codePoint hex _ ih => simp [readString, hex, ih]

end Strings

/-- The numbers and strings of a value are written as those of documents are. -/
inductive Value.WellFormed : Value → Prop where
  | null : WellFormed .null
  | bool (b : Bool) : WellFormed (.bool b)
  | number {numeral : Octets} (isNumber : IsNumber numeral) : WellFormed (.number numeral)
  | string {raw : Octets} (isString : IsString raw) : WellFormed (.string raw)
  | array {items : List Value} (each : ∀ v ∈ items, v.WellFormed) : WellFormed (.array items)
  | object {members : List (Octets × Value)} (keys : ∀ m ∈ members, IsString m.1)
    (each : ∀ m ∈ members, m.2.WellFormed) : WellFormed (.object members)

section Values

variable {v : Value} {fuel : Nat}

/-- A value that is read from every text that its compact form begins, if it ends there. -/
def ReadsBack (v : Value) : Prop :=
  ∀ fuel rest, v.render.length ≤ fuel → GoesOn closers rest →
    readValue fuel (v.render ++ rest) = some (v, rest)

theorem skipBlanks_cons {c : Char} (visible : isBlank c = false) (text : Octets) :
    skipBlanks (c :: text) = c :: text := by
  simp [skipBlanks, visible]

-- What begins a number begins nothing else, and is no blank.
theorem not_mem_of_number {c : Char} (first : c = '-' ∨ c.isDigit = true) :
    c ∉ [' ', '\n', '\t', '\r', 'n', 't', 'f', '"', '[', '{', ']'] := by
  have others : ∀ d ∈ [' ', '\n', '\t', '\r', 'n', 't', 'f', '"', '[', '{', ']'],
      ¬(d = '-' ∨ d.isDigit = true) := by simp
  exact fun member => others c member first

theorem isBlank_of_number {c : Char} (first : c = '-' ∨ c.isDigit = true) : isBlank c = false := by
  have other := not_mem_of_number first
  simp only [List.mem_cons, not_or] at other
  simp [isBlank, other]

theorem Value.WellFormed.head (wellFormed : v.WellFormed) :
    ∃ c text, v.render = c :: text ∧ isBlank c = false ∧ c ≠ ']' := by
  cases wellFormed with
  | null => exact ⟨'n', _, rfl, rfl, by decide⟩
  | bool b =>
    cases b with
    | false => exact ⟨'f', _, rfl, rfl, by decide⟩
    | true => exact ⟨'t', _, rfl, rfl, by decide⟩
  | number isNumber =>
    obtain ⟨c, text, rfl, first⟩ := isNumber.head
    refine ⟨c, text, rfl, isBlank_of_number first, ?_⟩
    rintro rfl
    exact absurd first (by decide)
  | string _ => exact ⟨'"', _, rfl, rfl, by decide⟩
  | array _ => exact ⟨'[', _, rfl, rfl, by decide⟩
  | object _ _ => exact ⟨'{', _, rfl, rfl, by decide⟩

theorem readsBack_number {numeral : Octets} (isNumber : IsNumber numeral) :
    ReadsBack (.number numeral) := by
  intro fuel rest enough ends
  have read := readNumber_append isNumber ends
  obtain ⟨c, text, rfl, first⟩ := isNumber.head
  have other := not_mem_of_number first
  simp only [List.mem_cons, not_or] at other
  cases fuel with
  | zero => simp [Value.render] at enough
  | succ fuel =>
    rw [List.cons_append] at read
    simp [Value.render, readValue, skipBlanks_cons (isBlank_of_number first), other, read]

theorem readsBack_string {raw : Octets} (isString : IsString raw) : ReadsBack (.string raw) := by
  intro fuel rest enough _
  have read := readString_append isString rest
  cases fuel with
  | zero => simp [Value.render, quote] at enough
  | succ fuel => simp [Value.render, quote, readValue, skipBlanks_cons, isBlank, read]

theorem readItems_append {items : List Value} (nonempty : items ≠ [])
    (each : ∀ v ∈ items, ReadsBack v) (enough : (renderItems items).length < fuel) (rest : Octets) :
    readItems fuel (renderItems items ++ ']' :: rest) = some (items, rest) := by
  induction items generalizing fuel with
  | nil => exact absurd rfl nonempty
  | cons v others ih =>
    obtain ⟨first, later⟩ := List.forall_mem_cons.1 each
    cases fuel with
    | zero => exact absurd enough (Nat.not_lt_zero _)
    | succ fuel =>
      cases others with
      | nil =>
        rw [renderItems] at enough ⊢
        have read := first fuel (']' :: rest) (Nat.le_of_lt_succ enough) (.cons (by decide) _)
        simp [readItems, read, skipBlanks_cons, isBlank]
      | cons w others =>
        simp only [renderItems, List.length_append, List.length_cons, List.append_assoc,
          List.cons_append] at enough ⊢
        have read := first fuel (',' :: (renderItems (w :: others) ++ ']' :: rest)) (by omega)
          (.cons (by decide) _)
        have shorter : (renderItems (w :: others)).length < fuel := by omega
        have rested := ih (List.cons_ne_nil w others) later shorter
        simp [readItems, read, skipBlanks_cons, isBlank, rested]

theorem readsBack_array {items : List Value} (wellFormed : ∀ v ∈ items, v.WellFormed)
    (each : ∀ v ∈ items, ReadsBack v) : ReadsBack (.array items) := by
  intro fuel rest enough _
  cases fuel with
  | zero => simp [Value.render] at enough
  | succ fuel =>
    cases items with
    | nil => simp [Value.render, renderItems, readValue, skipBlanks_cons, isBlank]
    | cons v others =>
      simp only [Value.render, List.length_cons, List.length_append, List.length_nil] at enough
      have shorter : (renderItems (v :: others)).length < fuel := by omega
      have read := readItems_append (List.cons_ne_nil v others) each shorter rest
      obtain ⟨c, text, begins, visible, other⟩ := (wellFormed v List.mem_cons_self).head
      have first : ∃ text, renderItems (v :: others) = c :: text := by
        cases others with
        | nil => exact ⟨text, begins⟩
        | cons w others =>
          exact ⟨text ++ ',' :: renderItems (w :: others), by simp [renderItems, begins]⟩
      obtain ⟨text, begins⟩ := first
      rw [begins, List.cons_append] at read
      have bracket : isBlank '[' = false := rfl
      simp [Value.render, begins, readValue, skipBlanks_cons bracket, skipBlanks_cons visible,
        other, read]

theorem readKey_append {raw : Octets} (isString : IsString raw) (text : Octets) :
    readKey (quote raw ++ ':' :: text) = some (raw, text) := by
  have read := readString_append isString (':' :: text)
  simp [readKey, quote, skipBlanks_cons, isBlank, read]

theorem readMembers_append {members : List (Octets × Value)} (nonempty : members ≠ [])
    (keys : ∀ m ∈ members, IsString m.1) (each : ∀ m ∈ members, ReadsBack m.2)
    (enough : (renderMembers members).length < fuel) (rest : Octets) :
    readMembers fuel (renderMembers members ++ '}' :: rest) = some (members, rest) := by
  induction members generalizing fuel with
  | nil => exact absurd rfl nonempty
  | cons m others ih =>
    obtain ⟨key, v⟩ := m
    obtain ⟨named, laterNamed⟩ := List.forall_mem_cons.1 keys
    obtain ⟨first, later⟩ := List.forall_mem_cons.1 each
    dsimp only at named first
    cases fuel with
    | zero => exact absurd enough (Nat.not_lt_zero _)
    | succ fuel =>
      cases others with
      | nil =>
        simp only [renderMembers, renderMember, List.length_append, List.length_cons,
          List.append_assoc, List.cons_append] at enough ⊢
        have read := first fuel ('}' :: rest) (by omega) (.cons (by decide) _)
        simp [readMembers, readKey_append named, read, skipBlanks_cons, isBlank]
      | cons n others =>
        simp only [renderMembers, renderMember, List.length_append, List.length_cons,
          List.append_assoc, List.cons_append] at enough ⊢
        have read := first fuel (',' :: (renderMembers (n :: others) ++ '}' :: rest)) (by omega)
          (.cons (by decide) _)
        have shorter : (renderMembers (n :: others)).length < fuel := by omega
        have rested := ih (List.cons_ne_nil n others) laterNamed later shorter
        simp [readMembers, readKey_append named, read, skipBlanks_cons, isBlank, rested]

theorem readsBack_object {members : List (Octets × Value)} (keys : ∀ m ∈ members, IsString m.1)
    (each : ∀ m ∈ members, ReadsBack m.2) : ReadsBack (.object members) := by
  intro fuel rest enough _
  cases fuel with
  | zero => simp [Value.render] at enough
  | succ fuel =>
    cases members with
    | nil => simp [Value.render, renderMembers, readValue, skipBlanks_cons, isBlank]
    | cons m others =>
      obtain ⟨key, v⟩ := m
      simp only [Value.render, List.length_cons, List.length_append, List.length_nil] at enough
      have shorter : (renderMembers ((key, v) :: others)).length < fuel := by omega
      have read := readMembers_append (List.cons_ne_nil _ others) keys each shorter rest
      have first : ∃ text, renderMembers ((key, v) :: others) = '"' :: text := by
        cases others with
        | nil => simp [renderMembers, renderMember, quote]
        | cons n others => simp [renderMembers, renderMember, quote]
      obtain ⟨text, begins⟩ := first
      rw [begins, List.cons_append] at read
      simp [Value.render, begins, readValue, skipBlanks_cons, isBlank, read]

/-- The compact form of a well-formed value is read, whatever follows it in a document. -/
theorem Value.WellFormed.readsBack (wellFormed : v.WellFormed) : ReadsBack v := by
  induction wellFormed with
  | null =>
    intro fuel rest enough _
    cases fuel with
    | zero => simp [Value.render] at enough
    | succ fuel => simp [Value.render, readValue, skipBlanks_cons, isBlank]
  | bool b =>
    intro fuel rest enough _
    cases fuel with
    | zero => cases b <;> simp [Value.render] at enough
    | succ fuel => cases b <;> simp [Value.render, readValue, skipBlanks_cons, isBlank]
  | number isNumber => exact readsBack_number isNumber
  | string isString => exact readsBack_string isString
  | array each ih => exact readsBack_array each ih
  | object keys _ ih => exact readsBack_object keys ih

/-- A document in compact form is read as the value that was written. -/
theorem read?_render (wellFormed : v.WellFormed) : read? v.render = some v := by
  have read := wellFormed.readsBack (2 * v.render.length + 2) [] (by omega) (by simp [GoesOn])
  rw [List.append_nil] at read
  simp [read?, read, skipBlanks]

end Values

end Horizon.Json
