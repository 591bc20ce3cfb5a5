/-
How much of a request the path of its address carries.

A server is given as path what stands before the first question mark or
number sign of an address. Encoding leaves these two marks as they are, in
whatever part of the address they stand, so the path goes as far as the
first of them in the plain address (`percentDecode_pathOf`).

The words of JSON, its numbers and its brackets have no mark, and no escape
of a string makes or takes away one: the text of a value has a mark exactly
when a string or a key in it does (`Json.unmarked_chars`). That decides
which requests are carried in full (`Client.path_full_iff`).
-/
import Mathlib.Data.List.TakeWhile
import QueryForm.Proofs.Backend.Address

namespace QueryForm

namespace Json

mutual

/-- The strings and the keys in a value. -/
def texts : Json → List String
  | string s => [s]
  | array items => itemsTexts items
  | object members => membersTexts members
  | _ => []

/-- The strings and the keys in items. -/
def itemsTexts : List Json → List String
  | [] => []
  | item :: items => texts item ++ itemsTexts items

/-- The keys of members, and the strings and the keys in their values. -/
def membersTexts : List (String × Json) → List String
  | [] => []
  | (k, v) :: members => k :: (texts v ++ membersTexts members)

end

end Json

namespace Backend

/-- A mark that ends the path of an address. -/
def isMark (c : Char) : Bool :=
  c == '?' || c == '#'

/-- The path of an address, with all that comes before it. -/
def pathOf (cs : List Char) : List Char :=
  cs.takeWhile fun c => !isMark c

/-- A text without marks. -/
def Unmarked (cs : List Char) : Prop :=
  ∀ c ∈ cs, isMark c = false

instance (cs : List Char) : Decidable (Unmarked cs) :=
  List.decidableBAll (isMark · = false) cs

@[simp] theorem unmarked_nil : Unmarked [] := by simp [Unmarked]

@[simp] theorem unmarked_cons {c : Char} {cs : List Char} :
    Unmarked (c :: cs) ↔ isMark c = false ∧ Unmarked cs :=
  List.forall_mem_cons

@[simp] theorem unmarked_append {cs ds : List Char} :
    Unmarked (cs ++ ds) ↔ Unmarked cs ∧ Unmarked ds :=
  List.forall_mem_append

theorem unmarked_flatMap {α : Type} {as : List α} {f : α → List Char} :
    Unmarked (as.flatMap f) ↔ ∀ a ∈ as, Unmarked (f a) := by
  induction as with
  | nil => simp
  | cons a as ih => simp [ih]

end Backend

/-! ## Marks in the text of a value -/

open Backend (isMark Unmarked unmarked_flatMap unmarked_cons)

theorem DigitRun.unmarked_text (run : DigitRun) : Unmarked run.text := by
  have hdigit : ∀ d : Digit, isMark d.char = false := by decide
  intro c hc
  obtain ⟨d, -, rfl⟩ := List.mem_map.1 hc
  exact hdigit d

theorem Numeral.unmarked_text (n : Numeral) : Unmarked n.text := by
  have hfraction : Unmarked (fractionText n.fraction) := by
    cases n.fraction with
    | none => simp [fractionText]
    | some run => simpa [fractionText] using ⟨by decide, run.unmarked_text⟩
  have hexponent : Unmarked (exponentText n.exponent) := by
    rcases n.exponent with _ | ⟨_ | _, run⟩
    · simp [exponentText]
    · simpa [exponentText] using ⟨by decide, by decide, run.unmarked_text⟩
    · simpa [exponentText] using ⟨by decide, by decide, run.unmarked_text⟩
  have hsign : Unmarked (if n.negative then ['-'] else []) := by
    split <;> simp [isMark]
  simpa [text] using ⟨hsign, DigitRun.unmarked_text _, hfraction, hexponent⟩

namespace Quoted

/-- An escape has a mark exactly where the character that it stands for is one. -/
theorem unmarked_escape (c : Char) : Unmarked (escape c) ↔ isMark c = false := by
  have hcontrol : ∀ n < 32,
      isMark (Char.ofNat n) = false ∧ Unmarked (escape (Char.ofNat n)) := by
    decide
  by_cases h : c.toNat < 32
  · have hc := hcontrol c.toNat h
    rw [Char.ofNat_toNat] at hc
    exact iff_of_true hc.2 hc.1
  · have hshort : ∀ d : Char, d.toNat < 32 → c ≠ d := fun d hd e => h (e ▸ hd)
    by_cases hq : c = '\x22'
    · subst hq
      exact iff_of_true (by simp [escape, isMark]) rfl
    by_cases hb : c = '\\'
    · subst hb
      exact iff_of_true (by simp [escape, isMark]) rfl
    have hself : escape c = [c] := by
      rw [escape, if_neg hq, if_neg hb, if_neg (hshort _ (by decide)),
        if_neg (hshort _ (by decide)), if_neg (hshort _ (by decide)),
        if_neg (hshort _ (by decide)), if_neg (hshort _ (by decide)), if_neg h]
    simp [hself]

theorem unmarked_quote (cs : List Char) : Unmarked (quote cs) ↔ Unmarked cs := by
  have hquote : isMark '\x22' = false := by decide
  have hflat : Unmarked (cs.flatMap escape) ↔ Unmarked cs :=
    unmarked_flatMap.trans (forall₂_congr fun c _ => unmarked_escape c)
  simp [quote, hquote, hflat]

end Quoted

namespace Json

/-- None of some texts has a mark. -/
def AllUnmarked (texts : List String) : Prop :=
  ∀ t ∈ texts, Unmarked t.toList

instance (texts : List String) : Decidable (AllUnmarked texts) :=
  List.decidableBAll (fun t : String => Unmarked t.toList) texts

@[simp] theorem allUnmarked_nil : AllUnmarked [] := by simp [AllUnmarked]

@[simp] theorem allUnmarked_cons {t : String} {ts : List String} :
    AllUnmarked (t :: ts) ↔ Unmarked t.toList ∧ AllUnmarked ts :=
  List.forall_mem_cons

@[simp] theorem allUnmarked_append {ts us : List String} :
    AllUnmarked (ts ++ us) ↔ AllUnmarked ts ∧ AllUnmarked us :=
  List.forall_mem_append

theorem isMark_punctuation : isMark ',' = false ∧ isMark ':' = false ∧ isMark '[' = false ∧
    isMark ']' = false ∧ isMark '\x7b' = false ∧ isMark '\x7d' = false := by
  decide

mutual

/-- **Marks in a text.** The text of a value has a mark exactly when a string or a key in the value
has one. -/
theorem unmarked_chars : ∀ value : Json, Unmarked value.chars ↔ AllUnmarked value.texts
  | null => by simp [chars, nullWord, texts, isMark]
  | bool true => by simp [chars, boolWord, texts, isMark]
  | bool false => by simp [chars, boolWord, texts, isMark]
  | number n => by simp [chars, texts, n.unmarked_text]
  | string s => by simp [chars, texts, Quoted.unmarked_quote]
  | array [] => by simp [chars, itemsChars, texts, itemsTexts, isMark_punctuation]
  | array (item :: items) => by
    simp [chars, itemsChars, texts, itemsTexts, isMark_punctuation, unmarked_chars item,
      unmarked_nextItems items]
  | object [] => by simp [chars, membersChars, texts, membersTexts, isMark_punctuation]
  | object ((k, v) :: members) => by
    simp [chars, membersChars, texts, membersTexts, isMark_punctuation, Quoted.unmarked_quote,
      unmarked_chars v, unmarked_nextMembers members]

theorem unmarked_nextItems : ∀ items : List Json,
    Unmarked (nextItems items) ↔ AllUnmarked (itemsTexts items)
  | [] => by simp [nextItems, itemsTexts, isMark_punctuation]
  | item :: items => by
    simp [nextItems, itemsTexts, isMark_punctuation, unmarked_chars item,
      unmarked_nextItems items]

theorem unmarked_nextMembers : ∀ members : List (String × Json),
    Unmarked (nextMembers members) ↔ AllUnmarked (membersTexts members)
  | [] => by simp [nextMembers, membersTexts, isMark_punctuation]
  | (k, v) :: members => by
    simp [nextMembers, membersTexts, isMark_punctuation, Quoted.unmarked_quote, unmarked_chars v,
      unmarked_nextMembers members]

end

end Json

namespace Backend

open Text (percentChar percentEncode percentDecode)

/-! ## Paths -/

theorem pathOf_eq_self_iff {cs : List Char} : pathOf cs = cs ↔ Unmarked cs := by
  simp [pathOf, Unmarked, List.takeWhile_eq_self_iff]

theorem pathOf_append {cs : List Char} (h : Unmarked cs) (ds : List Char) :
    pathOf (cs ++ ds) = cs ++ pathOf ds := by
  refine List.takeWhile_append_of_pos fun c hc => ?_
  rw [h c hc]
  rfl

/-- What stands for a character that is no mark has none. -/
theorem unmarked_percentChar {c : Char} (h : isMark c = false) : Unmarked (percentChar c) := by
  have hhex : ∀ d, isMark (Text.upperHex d) = false := by decide
  unfold percentChar
  split
  · simpa using h
  · refine unmarked_flatMap.2 fun b _ => ?_
    simp only [Text.percentByte, unmarked_cons, hhex, unmarked_nil, and_true]
    decide

/-- A mark stands for itself. -/
theorem percentChar_mark {c : Char} (h : isMark c = true) : percentChar c = [c] := by
  have huri : Text.isUriChar c = true := by
    simp only [isMark, Bool.or_eq_true, beq_iff_eq] at h
    rcases h with rfl | rfl <;> decide
  rw [percentChar, if_pos huri]

/-- The path of an encoded text is the path of the text, encoded. -/
theorem pathOf_flatMap (cs : List Char) :
    pathOf (cs.flatMap percentChar) = (pathOf cs).flatMap percentChar := by
  induction cs with
  | nil => rfl
  | cons c cs ih =>
    cases h : isMark c with
    | true => simp [pathOf, percentChar_mark h, h]
    | false =>
      have hpath : pathOf (c :: cs) = c :: pathOf cs := by simp [pathOf, h]
      rw [hpath, List.flatMap_cons, List.flatMap_cons, pathOf_append (unmarked_percentChar h), ih]

/-- **The path of an encoded text** decodes to the text up to its first mark. -/
theorem percentDecode_pathOf (s : String) :
    percentDecode (pathOf (percentEncode s).toList) =
      (pathOf s.toList).flatMap String.utf8EncodeChar := by
  have hdecode := Text.percentDecode_percentEncode (String.ofList (pathOf s.toList))
  rw [percentEncode, String.toList_ofList, String.toList_ofList] at hdecode
  rw [percentEncode, String.toList_ofList, pathOf_flatMap, hdecode]

/-- A path has the bytes of a whole text only if there is nothing behind it. -/
theorem utf8_pathOf_eq_iff {cs : List Char} :
    (pathOf cs).flatMap String.utf8EncodeChar = cs.flatMap String.utf8EncodeChar ↔
      Unmarked cs := by
  rw [← pathOf_eq_self_iff]
  refine ⟨fun h => ?_, fun h => by rw [h]⟩
  have hsplit : pathOf cs ++ cs.dropWhile (fun c => !isMark c) = cs := List.takeWhile_append_dropWhile
  have hrest : cs.dropWhile (fun c => !isMark c) = [] := by
    conv at h => rhs; rw [← hsplit, List.flatMap_append]
    have hnil := List.append_right_eq_self.1 h.symm
    refine List.eq_nil_iff_forall_not_mem.2 fun c hc => ?_
    have hbytes := List.flatMap_eq_nil_iff.1 hnil c hc
    exact String.utf8EncodeChar_ne_nil hbytes
  rwa [hrest, List.append_nil] at hsplit

/-! ## Requests -/

/-- All that a request says: where the backend is, the operation, the collection and the documents,
each part behind a slash. -/
def Request.full (r : Request) (s : Settings) (collection : String) : List Char :=
  s.root ++ '/' :: (r.operation.name.toList ++ '/' :: (collection.toList ++ segments r.documents))

theorem unmarked_full {s : Settings} (hroot : Unmarked s.root) (collection : String)
    (r : Request) : Unmarked (r.full s collection) ↔
      Unmarked collection.toList ∧ ∀ d ∈ r.documents, Json.AllUnmarked d.texts := by
  have hslash : isMark '/' = false := by decide
  have hname : Unmarked r.operation.name.toList := by
    cases r.operation <;> decide
  have hsegments : Unmarked (segments r.documents) ↔
      ∀ d ∈ r.documents, Json.AllUnmarked d.texts := by
    refine unmarked_flatMap.trans (forall₂_congr fun d _ => ?_)
    rw [unmarked_cons, and_iff_right hslash, Json.unmarked_chars]
  simp [Request.full, hroot, hslash, hname, hsegments]

/-- A request is recorded under an address whose path decodes to what it says, up to the first
mark. -/
theorem Client.path_send (c : Client) {collection : String} (h : collection ≠ "") (r : Request) :
    ∃ url, (c.send collection r).1.sent = c.sent ++ [url] ∧ percentDecode (pathOf url.toList) =
      (pathOf (r.full c.settings collection)).flatMap String.utf8EncodeChar := by
  refine ⟨_, c.sent_send h r, ?_⟩
  rw [percentDecode_pathOf, plainAddress_eq, String.toList_ofList]
  rfl

/-- **Paths.** A request about a named collection is recorded under an address whose path decodes to
all that the request says up to its first mark. So the path carries it in full exactly when neither
the collection nor a string or a key in a document has a question mark or a number sign. -/
theorem Client.path_full_iff {c : Client} (hroot : Unmarked c.settings.root) {collection : String}
    (h : collection ≠ "") (r : Request) :
    ∃ url, (c.send collection r).1.sent = c.sent ++ [url] ∧
      percentDecode (pathOf url.toList) =
        (pathOf (r.full c.settings collection)).flatMap String.utf8EncodeChar ∧
      (percentDecode (pathOf url.toList) =
          (r.full c.settings collection).flatMap String.utf8EncodeChar ↔
        Unmarked collection.toList ∧ ∀ d ∈ r.documents, Json.AllUnmarked d.texts) := by
  obtain ⟨url, hsent, hpath⟩ := c.path_send h r
  refine ⟨url, hsent, hpath, ?_⟩
  rw [hpath, utf8_pathOf_eq_iff, unmarked_full hroot]

/-- Slashes, quotes and percent signs do not cut a path short. -/
theorem Client.path_full_iff_slash :
    ∃ url, ((⟨{}, [], []⟩ : Client).send "a/b%" (.delete (some [("é", .string "/")]))).1.sent =
        [] ++ [url] ∧
      percentDecode (pathOf url.toList) =
        ((Request.delete (some [("é", .string "/")])).full {} "a/b%").flatMap
          String.utf8EncodeChar := by
  obtain ⟨url, hsent, -, hfull⟩ := Client.path_full_iff (c := ⟨{}, [], []⟩)
    (by decide) (by decide : "a/b%" ≠ "") (.delete (some [("é", .string "/")]))
  exact ⟨url, hsent, hfull.2 (by decide)⟩

/-- The path of a deletion ends within the filter, where the filter has a question mark. -/
theorem Client.path_cut_short :
    ∃ url, ((⟨{}, [], []⟩ : Client).send "people"
        (.delete (some [("note", .string "why?")]))).1.sent = [url] ∧
      percentDecode (pathOf url.toList) ≠
        ((Request.delete (some [("note", .string "why?")])).full {} "people").flatMap
          String.utf8EncodeChar := by
  obtain ⟨url, hsent, hpath⟩ := Client.path_send ⟨{}, [], []⟩ (by decide : "people" ≠ "")
    (.delete (some [("note", .string "why?")]))
  refine ⟨url, hsent, ?_⟩
  rw [hpath, Ne, utf8_pathOf_eq_iff]
  decide

end Backend

end QueryForm
