import Mathlib.Data.List.TakeWhile
import Mathlib.Tactic

/-!
# Formatted extraction from a text

An input stream is the text in front of it with the two bits a failed extraction sets. `extract`
skips white space, lets a `Format` take the characters of one field and converts them; `extractAll`
is the loop that goes on for as long as this succeeds. A `Token` is a field that is taken whole
wherever white space follows it, so a text made of tokens is read back token by token, however they
are spaced (`extract_token`, `extractAll_items`).
-/

namespace NnProcessor.Stream

/-- An input stream: the characters in front of it, `eofbit` and `failbit`. -/
structure Istream where
  rest : List Char
  eof : Bool := false
  fail : Bool := false

/-- The white space of the C locale. -/
def isSpace (c : Char) : Bool := c.toNat = 32 || (9 ≤ c.toNat && c.toNat ≤ 13)

/-- How a number is read: `scan` takes the characters of a field, `value` converts them. A
conversion that fails still says what is stored. -/
structure Format (ι β α : Type) where
  scan : List Char → ι × List Char
  text : ι → List Char
  value : ι → Except β α
  text_scan : ∀ cs, text (scan cs).1 ++ (scan cs).2 = cs
  value_empty : ∀ f, text f = [] → ∀ v, value f ≠ .ok v

namespace Istream

/-- Neither bit is set. -/
def good (s : Istream) : Bool := !s.eof && !s.fail

/-- What an extraction does first: it fails on a stream that is not good or has only white space in
front, and otherwise skips the white space. -/
def sentry (s : Istream) : Option (List Char) :=
  if s.good then
    match s.rest.dropWhile isSpace with
    | [] => none
    | c :: cs => some (c :: cs)
  else none

/-- A stream on which the sentry has failed. -/
def refused (s : Istream) : Istream :=
  if s.good then { rest := [], eof := true, fail := true } else { s with fail := true }

end Istream

variable {ι β α : Type} (fmt : Format ι β α)

/-- `operator>>`. It stores a value, or what the conversion leaves behind when it fails, or, when
already the sentry does, nothing. -/
def extract (s : Istream) : Except (Option β) α × Istream :=
  match s.sentry with
  | none => (.error none, s.refused)
  | some cs =>
    let (field, rest) := fmt.scan cs
    match fmt.value field with
    | .ok v => (.ok v, { rest, eof := rest.isEmpty })
    | .error b => (.error (some b), { rest, eof := rest.isEmpty, fail := true })

/-- At most `n` turns of `while (s >> v)`. -/
def extractN : Nat → Istream → List α × Istream
  | 0, s => ([], s)
  | n + 1, s =>
    match extract fmt s with
    | (.ok v, s') => ((v :: (extractN n s').1), (extractN n s').2)
    | (.error _, s') => ([], s')

/-- `while (s >> v)`, with a turn for each character. -/
def extractAll (s : Istream) : List α × Istream := extractN fmt (s.rest.length + 1) s

namespace Istream

variable {s : Istream}

/-- Nothing is extracted from a stream that has failed. -/
lemma sentry_of_fail (fail : s.fail = true) : s.sentry = none := by
  simp [sentry, good, fail]

/-- Skipping white space does not make a text longer. -/
lemma length_sentry {cs : List Char} (h : s.sentry = some cs) : cs.length ≤ s.rest.length := by
  unfold sentry at h
  split at h
  · have le := (List.dropWhile_suffix isSpace (l := s.rest)).length_le
    split at h
    · cases h
    · next eq =>
      cases h
      rwa [← eq]
  · cases h

/-- White space in front of a character that is none is skipped. -/
lemma sentry_gap (good : s.good = true) {gap text : List Char} {c : Char}
    (rest : s.rest = gap ++ c :: text) (space : ∀ x ∈ gap, isSpace x = true)
    (stop : isSpace c = false) : s.sentry = some (c :: text) := by
  have skip : s.rest.dropWhile isSpace = c :: text := by
    rw [rest, List.dropWhile_append_of_pos space]
    simp [stop]
  simp [sentry, good, skip]

/-- Only white space is no field. -/
lemma sentry_space (space : ∀ x ∈ s.rest, isSpace x = true) : s.sentry = none := by
  have skip : s.rest.dropWhile isSpace = [] := List.dropWhile_eq_nil_iff.2 space
  simp [sentry, skip]

end Istream

variable {fmt}

/-- A field that is converted has a character. -/
lemma extract_progress {s s' : Istream} {v : α} (h : extract fmt s = (.ok v, s')) :
    s'.rest.length < s.rest.length := by
  unfold extract at h
  cases start : s.sentry with
  | none => simp [start] at h
  | some cs =>
    have le := Istream.length_sentry start
    have whole := congrArg List.length (fmt.text_scan cs)
    rw [List.length_append] at whole
    simp only [start] at h
    cases conv : fmt.value (fmt.scan cs).1 with
    | error b => simp [conv] at h
    | ok w =>
      simp only [conv, Prod.mk.injEq] at h
      have some : fmt.text (fmt.scan cs).1 ≠ [] := fun none => fmt.value_empty _ none w conv
      have pos := List.length_pos_of_ne_nil some
      obtain ⟨-, rfl⟩ := h
      change (fmt.scan cs).2.length < _
      omega

/-- A stream that has failed stays failed. -/
lemma extract_fail {s : Istream} (fail : s.fail = true) :
    (extract fmt s).1 = .error none ∧ (extract fmt s).2.fail = true := by
  simp only [extract, Istream.sentry_of_fail fail, true_and]
  unfold Istream.refused
  split <;> rfl

/-- A failed extraction leaves a failed stream. -/
lemma extract_error {s s' : Istream} {b : Option β} (h : extract fmt s = (.error b, s')) :
    s'.fail = true := by
  unfold extract at h
  cases start : s.sentry with
  | none =>
    simp only [start, Prod.mk.injEq] at h
    rw [← h.2]
    unfold Istream.refused
    split <;> rfl
  | some cs =>
    simp only [start] at h
    cases conv : fmt.value (fmt.scan cs).1 with
    | ok w => simp [conv] at h
    | error b' =>
      simp only [conv, Prod.mk.injEq] at h
      rw [← h.2]

/-- More turns than characters change nothing. -/
lemma extractN_enough {n m : Nat} {s : Istream} (le : s.rest.length < n) (le' : s.rest.length < m) :
    extractN fmt n s = extractN fmt m s := by
  induction n generalizing m s with
  | zero => exact absurd le (Nat.not_lt_zero _)
  | succ n ih =>
    cases m with
    | zero => exact absurd le' (Nat.not_lt_zero _)
    | succ m =>
      unfold extractN
      rcases eq : extract fmt s with ⟨_ | v, s'⟩
      · rfl
      · have less := extract_progress eq
        have same : extractN fmt n s' = extractN fmt m s' := ih (by omega) (by omega)
        simp only [same]

/-- One turn of the loop. -/
lemma extractAll_ok {s s' : Istream} {v : α} (h : extract fmt s = (.ok v, s')) :
    extractAll fmt s = (v :: (extractAll fmt s').1, (extractAll fmt s').2) := by
  have less := extract_progress h
  rw [extractAll, extractN, h]
  simp only
  rw [extractN_enough less (Nat.lt_succ_self _)]
  rfl

/-- The last turn of the loop. -/
lemma extractAll_error {s s' : Istream} {b : Option β} (h : extract fmt s = (.error b, s')) :
    extractAll fmt s = ([], s') := by
  rw [extractAll, extractN, h]

/-- Whatever is in front of a stream that has failed, nothing is read from it. -/
lemma extractAll_fail {s : Istream} (fail : s.fail = true) : (extractAll fmt s).1 = [] := by
  have none : (extract fmt s).1 = .error none := (extract_fail fail).1
  rcases eq : extract fmt s with ⟨b | v, s'⟩
  · rw [extractAll_error eq]
  · rw [eq] at none
    cases none

/-- What all converted values have in common, all values that are read have. -/
lemma extractAll_forall {P : α → Prop} (h : ∀ f v, fmt.value f = .ok v → P v) (s : Istream) :
    ∀ v ∈ (extractAll fmt s).1, P v := by
  unfold extractAll
  generalize s.rest.length + 1 = n
  induction n generalizing s with
  | zero => exact fun v mem => by cases mem
  | succ n ih =>
    unfold extractN
    rcases eq : extract fmt s with ⟨b | v, s'⟩
    · exact fun v mem => by cases mem
    · intro w mem
      rcases List.mem_cons.1 mem with rfl | mem
      · unfold extract at eq
        cases start : s.sentry with
        | none => simp [start] at eq
        | some cs =>
          simp only [start] at eq
          cases conv : fmt.value (fmt.scan cs).1 with
          | error b => simp [conv] at eq
          | ok u =>
            simp only [conv, Prod.mk.injEq, Except.ok.injEq] at eq
            exact eq.1 ▸ h _ u conv
      · exact ih s' w mem

/-- A field is over in front of white space and at the end of the text. -/
def Over (tail : List Char) : Prop := ∀ c ∈ tail.head?, isSpace c = true

/-- A number ends where the text ends. -/
lemma over_nil : Over [] := fun _ h => by cases h

/-- A number ends at white space. -/
lemma over_append {gap tail : List Char} (some : gap ≠ []) (space : ∀ x ∈ gap, isSpace x = true) :
    Over (gap ++ tail) := by
  cases gap with
  | nil => exact absurd rfl some
  | cons c gap =>
    intro x mem
    cases mem
    exact space c (by simp)

variable (fmt) in
/-- A field that is taken whole where it is over, with its value. -/
structure Token where
  field : ι
  value : α
  text_ne : fmt.text field ≠ []
  head : ∀ c ∈ (fmt.text field).head?, isSpace c = false
  scan : ∀ tail, Over tail → fmt.scan (fmt.text field ++ tail) = (field, tail)
  valid : fmt.value field = .ok value

namespace Token

/-- The characters of a token. -/
def text (tok : Token fmt) : List Char := fmt.text tok.field

/-- The stream in front of the rest of a text. -/
def behind (tail : List Char) : Istream := { rest := tail, eof := tail.isEmpty }

/-- Behind a number that is not the end of the text the stream is good. -/
lemma behind_good {tail : List Char} (some : tail ≠ []) : (behind tail).good = true := by
  cases tail with
  | nil => exact absurd rfl some
  | cons c tail => rfl

/-- A token is read, with the white space in front of it. -/
lemma extract_gap (tok : Token fmt) {s : Istream} (good : s.good = true) {gap tail : List Char}
    (rest : s.rest = gap ++ (tok.text ++ tail)) (space : ∀ x ∈ gap, isSpace x = true)
    (stops : Over tail) : extract fmt s = (.ok tok.value, behind tail) := by
  obtain ⟨c, cs, eq⟩ := List.exists_cons_of_ne_nil tok.text_ne
  have head := tok.head c (by simp [eq])
  have start : s.sentry = some (tok.text ++ tail) := by
    rw [text, eq, List.cons_append] at rest ⊢
    exact Istream.sentry_gap good rest space head
  unfold extract
  rw [start]
  simp only [text, tok.scan tail stops, tok.valid]
  rfl

end Token

/-- A token with the white space in front of it. -/
structure Item (fmt : Format ι β α) where
  gap : List Char
  token : Token fmt
  space : ∀ x ∈ gap, isSpace x = true

namespace Item

/-- The characters of an item. -/
def text (item : Item fmt) : List Char := item.gap ++ item.token.text

/-- The characters of a list of items and of the text behind them. -/
def render (items : List (Item fmt)) (tail : List Char) : List Char :=
  items.foldr (fun item text => item.text ++ text) tail

/-- The values of a list of items. -/
def values (items : List (Item fmt)) : List α := items.map fun item => item.token.value

/-- Two tokens are kept apart by white space. -/
def Apart (items : List (Item fmt)) : Prop := ∀ item ∈ items, item.gap ≠ []

/-- The first item is written first. -/
lemma render_cons (item : Item fmt) (items : List (Item fmt)) (tail : List Char) :
    render (item :: items) tail = item.gap ++ (item.token.text ++ render items tail) :=
  List.append_assoc _ _ _

/-- The text behind a token is over where the token is. -/
lemma over_render {items : List (Item fmt)} {tail : List Char} (apart : Apart items)
    (stops : Over tail) : Over (render items tail) := by
  cases items with
  | nil => exact stops
  | cons item items =>
    rw [render_cons]
    exact over_append (apart item (by simp)) item.space

end Item

/-- No field can be converted in front of a text. -/
def Barren (fmt : Format ι β α) (tail : List Char) : Prop :=
  Over tail ∧ ∃ b s', extract fmt (Token.behind tail) = (.error b, s')

/-- White space is barren. -/
lemma barren_space {tail : List Char} (space : ∀ x ∈ tail, isSpace x = true) :
    Barren fmt tail := by
  refine ⟨fun c mem => space c (List.mem_of_mem_head? mem), none, (Token.behind tail).refused, ?_⟩
  have start : (Token.behind tail).sentry = none := Istream.sentry_space space
  simp only [extract, start]

/-- The loop reads a text made of tokens, up to where there is no further one. -/
theorem extractAll_items {items : List (Item fmt)} {tail : List Char} (barren : Barren fmt tail)
    (apart : Item.Apart items) :
    (extractAll fmt (Token.behind (Item.render items tail))).1 = Item.values items := by
  induction items with
  | nil =>
    obtain ⟨-, b, s', none⟩ := barren
    exact congrArg Prod.fst (extractAll_error none)
  | cons item items ih =>
    have apart' : Item.Apart items := fun x mem => apart x (by simp [mem])
    have read : extract fmt (Token.behind (Item.render (item :: items) tail)) =
        (.ok item.token.value, Token.behind (Item.render items tail)) := by
      refine item.token.extract_gap (Token.behind_good ?_) (Item.render_cons item items tail)
        item.space (Item.over_render apart' barren.1)
      rw [Item.render_cons]
      intro none
      exact apart item (by simp) (List.append_eq_nil_iff.1 none).1
    rw [extractAll_ok read, ih apart']
    rfl

/-- So it does from the first character of a file, in front of which nothing has to keep a token
apart. -/
theorem extractAll_file {items : List (Item fmt)} {tail : List Char} (barren : Barren fmt tail)
    (apart : Item.Apart items.tail) :
    (extractAll fmt { rest := Item.render items tail }).1 = Item.values items := by
  cases items with
  | nil =>
    obtain ⟨-, b, s', none⟩ := barren
    cases tail with
    | nil => rfl
    | cons c tail => exact congrArg Prod.fst (extractAll_error none)
  | cons item items =>
    have read : extract fmt { rest := Item.render (item :: items) tail } =
        (.ok item.token.value, Token.behind (Item.render items tail)) :=
      item.token.extract_gap rfl (Item.render_cons item items tail) item.space
        (Item.over_render apart barren.1)
    rw [extractAll_ok read]
    exact congrArg (item.token.value :: ·) (extractAll_items barren apart)

end NnProcessor.Stream
