import OperatorGrammar.Proofs.Bundled
import OperatorGrammar.Proofs.Numeral
import OperatorGrammar.Proofs.Scan.Letters
import OperatorGrammar.Proofs.Scan.Source

/-! # A step looks no further than the next cut

The longest match, the test whether a word goes on, the exponent of a number and the look-ahead for
an argument list all read characters behind the piece that a step takes.  A character cuts a text if
no symbol, no name and no number goes on with it (`Grammar.CutsAt`).  In the bundled grammars no
symbol contains a separator, and one that contains a letter is a word (`Grammar.Spaced`); so the
separators are such characters.  If the text goes on otherwise somewhere behind the piece, with such
a character or not at all, the step is the same (`Step.cut_of_ahead`): what matches before the cut
still matches, and nothing new does.  The look-ahead asks only for the first character that is not
blank. -/

namespace OperatorGrammar

variable {g : Grammar} {c d : Char} {cs ds front rest rest' text piece : List Char}
  {symbol : String}

/-! ### Symbols -/

/-- Whether a symbol is a word: a name that may be cut off from a longer one. -/
def isWord (symbol : String) : Bool := symbol.toList.all isNameStart

/-- Whether a symbol consists of characters of names. -/
def isNameLike (symbol : String) : Bool := symbol.toList.all isNameChar

/-- Whether a symbol contains no blank. -/
def isVisible (symbol : String) : Bool := symbol.toList.all fun c => !isBlank c

/-- Whether a symbol contains no character of names. -/
def isPunctuation (symbol : String) : Bool := symbol.toList.all fun c => !isNameChar c

theorem isNameLike_of_isWord (h : isWord symbol = true) : isNameLike symbol = true :=
  List.all_eq_true.mpr fun c hc => isNameChar_of_isNameStart (List.all_eq_true.mp h c hc)

theorem isBlank_of_isVisible (h : isVisible symbol = true) :
    ∀ c ∈ symbol.toList, isBlank c = false := by
  simpa [isVisible] using h

theorem isNameChar_of_isPunctuation (h : isPunctuation symbol = true) :
    ∀ c ∈ symbol.toList, isNameChar c = false := by
  simpa [isPunctuation] using h

/-- No symbol contains a blank, an operator that contains a character of names is a word, and the
opener of argument lists is one character. -/
structure Grammar.Spaced (g : Grammar) : Prop where
  delimiter : ∀ pair ∈ g.parentheticals, isVisible pair.opener = true ∧ isVisible pair.closer = true
  operator : ∀ symbol ∈ g.operatorSymbols, isVisible symbol = true
  word : ∀ symbol ∈ g.operatorSymbols, isWord symbol = true ∨ isPunctuation symbol = true
  argumentOpener : g.argumentOpener.toList.length = 1

instance (g : Grammar) : Decidable g.Spaced :=
  decidable_of_iff
    ((∀ pair ∈ g.parentheticals, isVisible pair.opener = true ∧ isVisible pair.closer = true) ∧
      (∀ symbol ∈ g.operatorSymbols, isVisible symbol = true) ∧
      (∀ symbol ∈ g.operatorSymbols, isWord symbol = true ∨ isPunctuation symbol = true) ∧
      g.argumentOpener.toList.length = 1)
    ⟨fun ⟨hd, ho, hw, ha⟩ => ⟨hd, ho, hw, ha⟩, fun ⟨hd, ho, hw, ha⟩ => ⟨hd, ho, hw, ha⟩⟩

theorem Grammar.spaced_of_bundled : ∀ g ∈ bundled, g.Spaced := by decide +kernel

theorem Grammar.noEmptySymbol_of_bundled (g : Grammar) (hg : g ∈ bundled) : g.NoEmptySymbol := by
  have delimiter : ∀ g ∈ bundled, ∀ pair ∈ g.parentheticals,
      pair.opener ≠ "" ∧ pair.closer ≠ "" := by decide +kernel
  have operator : ∀ g ∈ bundled, ∀ symbol ∈ g.operatorSymbols, symbol ≠ "" := by decide +kernel
  exact ⟨delimiter g hg, operator g hg⟩

/-! ### Cuts -/

/-- Whether a character can stand inside a number or a name. -/
def isLexical (c : Char) : Bool := isNameChar c || c == '.' || c == '+' || c == '-'

/-- No use of a symbol goes on with a character. -/
def Grammar.EndsBefore (g : Grammar) (symbol : String) (c : Char) : Prop :=
  ∀ d ∈ symbol.toList.tail, sameChar g.caseSensitive c d = false

instance (g : Grammar) (symbol : String) (c : Char) : Decidable (g.EndsBefore symbol c) :=
  inferInstanceAs (Decidable (∀ d ∈ symbol.toList.tail, sameChar g.caseSensitive c d = false))

/-- A character with which nothing goes on: it may begin a symbol, but it stands in no other place
of one, and in no number and no name. -/
structure Grammar.CutsAt (g : Grammar) (c : Char) : Prop where
  lexical : isLexical c = false
  delimiter : ∀ pair ∈ g.parentheticals, g.EndsBefore pair.opener c ∧ g.EndsBefore pair.closer c
  operator : ∀ symbol ∈ g.operatorSymbols, g.EndsBefore symbol c

instance (g : Grammar) (c : Char) : Decidable (g.CutsAt c) :=
  decidable_of_iff
    (isLexical c = false ∧
      (∀ pair ∈ g.parentheticals, g.EndsBefore pair.opener c ∧ g.EndsBefore pair.closer c) ∧
      ∀ symbol ∈ g.operatorSymbols, g.EndsBefore symbol c)
    ⟨fun ⟨hl, hd, ho⟩ => ⟨hl, hd, ho⟩, fun ⟨hl, hd, ho⟩ => ⟨hl, hd, ho⟩⟩

theorem isNameChar_eq_false (h : isLexical c = false) : isNameChar c = false := by
  simp only [isLexical, Bool.or_eq_false_iff] at h
  exact h.1.1.1

theorem isLexical_of_isSeparator (h : isSeparator c = true) : isLexical c = false := by
  simp only [isSeparator, Bool.or_eq_true, beq_iff_eq] at h
  rcases h with (((h | h) | h) | h) | h <;> subst h <;> decide

theorem Grammar.endsBefore_of_isVisible (hs : isVisible symbol = true) (hc : isBlank c = true) :
    g.EndsBefore symbol c := by
  intro d hd
  rw [Bool.eq_false_iff]
  intro hsame
  have hvisible := isBlank_of_isVisible hs d (List.mem_of_mem_tail hd)
  rw [isBlank_of_sameChar hc hsame] at hvisible
  cases hvisible

theorem Grammar.Spaced.cutsAt (spaced : g.Spaced) (h : isSeparator c = true) : g.CutsAt c := by
  have hb := isBlank_of_isSeparator h
  exact ⟨isLexical_of_isSeparator h,
    fun pair hpair => ⟨endsBefore_of_isVisible (spaced.delimiter pair hpair).1 hb,
      endsBefore_of_isVisible (spaced.delimiter pair hpair).2 hb⟩,
    fun symbol hsymbol => endsBefore_of_isVisible (spaced.operator symbol hsymbol) hb⟩

/-! ### Pieces up to a cut -/

/-- A piece without the character at a cut does not reach past it. -/
theorem isPrefix_of_cut (cut : ∀ c ∈ rest'.head?, c ∉ piece) (h : piece <+: front ++ rest') :
    piece <+: front := by
  induction front generalizing piece with
  | nil =>
      cases piece with
      | nil => exact List.nil_prefix
      | cons c piece =>
          cases rest' with
          | nil => exact h
          | cons d rest' =>
              obtain ⟨rfl, -⟩ := List.cons_prefix_cons.mp h
              exact absurd List.mem_cons_self (cut c rfl)
  | cons d front ih =>
      cases piece with
      | nil => exact List.nil_prefix
      | cons c piece =>
          obtain ⟨rfl, htail⟩ := List.cons_prefix_cons.mp h
          have cut' : ∀ d ∈ rest'.head?, d ∉ piece :=
            fun d hd hmem => cut d hd (List.mem_cons_of_mem c hmem)
          exact List.cons_prefix_cons.mpr ⟨rfl, ih cut' htail⟩

theorem takeWhile_cut {p : Char → Bool} (cut : ∀ c ∈ rest'.head?, p c = false)
    (h : ((front ++ rest).takeWhile p).length ≤ front.length) :
    (front ++ rest').takeWhile p = (front ++ rest).takeWhile p := by
  induction front with
  | nil =>
      have hrest : rest.takeWhile p = [] := List.length_eq_zero_iff.mp (Nat.le_zero.mp h)
      rw [List.nil_append, List.nil_append, hrest]
      cases rest' with
      | nil => rfl
      | cons c rest' => exact List.takeWhile_cons_of_neg (by simp [cut c rfl])
  | cons c front ih =>
      by_cases hc : p c = true
      · rw [List.cons_append, List.takeWhile_cons_of_pos hc, List.length_cons,
          List.length_cons] at h
        rw [List.cons_append, List.cons_append, List.takeWhile_cons_of_pos hc,
          List.takeWhile_cons_of_pos hc, ih (by omega)]
      · rw [List.cons_append, List.cons_append, List.takeWhile_cons_of_neg hc,
          List.takeWhile_cons_of_neg hc]

theorem namePart_cut (cut : ∀ c ∈ rest'.head?, isLexical c = false)
    (h : (Lexeme.namePart (front ++ rest)).length ≤ front.length) :
    Lexeme.namePart (front ++ rest') = Lexeme.namePart (front ++ rest) := by
  cases front with
  | nil =>
      have hrest : Lexeme.namePart rest = [] := List.length_eq_zero_iff.mp (Nat.le_zero.mp h)
      rw [List.nil_append, List.nil_append, hrest]
      cases rest' with
      | nil => rfl
      | cons c rest' =>
          have hc := isNameStart_eq_false_of_isNameChar (isNameChar_eq_false (cut c rfl))
          simp [Lexeme.namePart, hc]
  | cons c front =>
      simp only [List.cons_append, Lexeme.namePart] at h ⊢
      by_cases hc : isNameStart c = true
      · rw [if_pos hc, List.length_cons, List.length_cons] at h
        have htake : (front ++ rest').takeWhile isNameChar = (front ++ rest).takeWhile isNameChar :=
          takeWhile_cut (fun d hd => isNameChar_eq_false (cut d hd)) (by omega)
        rw [if_pos hc, if_pos hc, htake]
      · rw [if_neg hc, if_neg hc]

theorem isLexical_of_isNumeric (h : isNumeric c = true) : isLexical c = true := by
  rcases isNumeric_iff.mp h with h | rfl | rfl | rfl
  · simp [isLexical, isNameChar_of_isDigit h]
  · rfl
  · rfl
  · rfl

theorem IsNumber.isLexical (h : IsNumber cs) : ∀ c ∈ cs, isLexical c = true := by
  obtain ⟨mantissa, exponent, rfl, hmantissa, -, he⟩ := h.exists_mantissa
  refine List.forall_mem_append.mpr ⟨fun c hc => isLexical_of_isNumeric (hmantissa c hc), ?_⟩
  have hnumeric := he.isNumeric
  rcases he with rfl | ⟨e, rest, -, -, rfl, hletter, -⟩
  · simp
  · refine List.forall_mem_cons.mpr ⟨?_, fun c hc => isLexical_of_isNumeric (hnumeric c hc)⟩
    rcases hletter with rfl | rfl <;> rfl

/-- A number at the front of one text is no longer than the one of another text that begins with
it. -/
theorem length_numberPart_le (h : Lexeme.numberPart cs <+: ds) :
    (Lexeme.numberPart cs).length ≤ (Lexeme.numberPart ds).length := by
  by_cases hne : Lexeme.numberPart cs = []
  · rw [hne]
    exact Nat.zero_le _
  · obtain ⟨rest, hrest⟩ := h
    have hle := (isNumber_numberPart hne).length_le rest
    rwa [hrest] at hle

theorem numberPart_cut (cut : ∀ c ∈ rest'.head?, isLexical c = false)
    (h : (Lexeme.numberPart (front ++ rest)).length ≤ front.length) :
    Lexeme.numberPart (front ++ rest') = Lexeme.numberPart (front ++ rest) := by
  have hold : Lexeme.numberPart (front ++ rest) <+: front :=
    List.prefix_of_prefix_length_le (Lexeme.numberPart_isPrefix _) (List.prefix_append _ _) h
  have hnew : Lexeme.numberPart (front ++ rest') <+: front := by
    refine isPrefix_of_cut (fun c hc hmem => ?_) (Lexeme.numberPart_isPrefix _)
    have hlexical := (isNumber_numberPart (List.ne_nil_of_mem hmem)).isLexical c hmem
    rw [cut c hc] at hlexical
    cases hlexical
  have hle := length_numberPart_le (hnew.trans (List.prefix_append front rest))
  have hge := length_numberPart_le (hold.trans (List.prefix_append front rest'))
  exact (List.prefix_of_prefix_length_le hnew hold hle).eq_of_length (by omega)

theorem Lexeme.namePart_eq_nil_of_number (h : numberPart cs ≠ []) : namePart cs = [] := by
  cases cs with
  | nil => rfl
  | cons c cs =>
      rw [namePart, if_neg]
      intro hc
      have hrange := isNameStart_iff.mp hc
      have hdigit : isDigit c = false := by
        rw [Bool.eq_false_iff]
        intro hd
        have := toNat_of_isDigit hd
        omega
      refine h (numberPart_eq_nil hdigit ?_ cs)
      rintro rfl
      cases hc

/-! ### Symbols up to a cut -/

theorem beginsWith_append {caseSensitive : Bool} (h : beginsWith caseSensitive text ds = true)
    (rest : List Char) : beginsWith caseSensitive (text ++ rest) ds = true := by
  induction ds generalizing text with
  | nil => unfold beginsWith; rfl
  | cons d ds ih =>
      cases text with
      | nil => cases h
      | cons c text =>
          obtain ⟨hc, hds⟩ := Bool.and_eq_true_iff.mp h
          exact Bool.and_eq_true_iff.mpr ⟨hc, ih hds⟩

theorem beginsWith_of_append {caseSensitive : Bool}
    (h : beginsWith caseSensitive (front ++ rest) ds = true) (hlen : ds.length ≤ front.length) :
    beginsWith caseSensitive front ds = true := by
  induction ds generalizing front with
  | nil => unfold beginsWith; rfl
  | cons d ds ih =>
      cases front with
      | nil => cases hlen
      | cons c front =>
          obtain ⟨hc, hds⟩ := Bool.and_eq_true_iff.mp h
          rw [List.length_cons, List.length_cons] at hlen
          exact Bool.and_eq_true_iff.mpr ⟨hc, ih hds (by omega)⟩

theorem length_le_of_beginsWith {caseSensitive : Bool}
    (cut : ∀ c ∈ rest'.head?, ∀ d ∈ ds, sameChar caseSensitive c d = false)
    (h : beginsWith caseSensitive (front ++ rest') ds = true) : ds.length ≤ front.length := by
  induction ds generalizing front with
  | nil => exact Nat.zero_le _
  | cons d ds ih =>
      cases front with
      | nil =>
          cases rest' with
          | nil => cases h
          | cons c rest' =>
              obtain ⟨hc, -⟩ := Bool.and_eq_true_iff.mp h
              rw [cut c rfl d List.mem_cons_self] at hc
              cases hc
      | cons c front =>
          obtain ⟨-, h⟩ := Bool.and_eq_true_iff.mp h
          have := ih (fun e he d hd => cut e he d (List.mem_cons_of_mem _ hd)) h
          rw [List.length_cons, List.length_cons]
          omega

namespace Grammar

theorem startsWith_keep (h : g.startsWith (front ++ rest) symbol = true)
    (hlen : symbol.toList.length ≤ front.length) (rest' : List Char) :
    g.startsWith (front ++ rest') symbol = true :=
  beginsWith_append (beginsWith_of_append h hlen) rest'

theorem startsWith_back (hne : front ≠ []) (cut : ∀ c ∈ rest'.head?, g.EndsBefore symbol c)
    (h : g.startsWith (front ++ rest') symbol = true) :
    symbol.toList.length ≤ front.length ∧ g.startsWith (front ++ rest) symbol = true := by
  obtain ⟨c, front, rfl⟩ := List.exists_cons_of_ne_nil hne
  have hlen : symbol.toList.length ≤ (c :: front).length := by
    cases hs : symbol.toList with
    | nil => exact Nat.zero_le _
    | cons d ds =>
        unfold startsWith at h
        rw [hs] at h
        obtain ⟨-, htail⟩ := Bool.and_eq_true_iff.mp h
        refine Nat.succ_le_succ (length_le_of_beginsWith (fun e he d hd => cut e he d ?_) htail)
        rwa [hs]
  exact ⟨hlen, startsWith_keep h hlen rest⟩

end Grammar

/-! ### Words -/

theorem forall_of_sameText {p : Char → Bool} (hp : ∀ c, p c.toLower = p c)
    (hall : symbol.toList.all p = true) (h : g.SameText piece symbol) :
    ∀ c ∈ piece, p c = true := by
  have hall : ∀ d ∈ symbol.toList, p d = true := List.all_eq_true.mp hall
  unfold Grammar.SameText at h
  generalize symbol.toList = ds at h hall
  induction h with
  | nil => simp
  | cons hc _ ih =>
      obtain ⟨hd, hds⟩ := List.forall_mem_cons.mp hall
      exact List.forall_mem_cons.mpr ⟨(class_eq_of_sameChar hp hc).trans hd, ih hds⟩

theorem namePart_eq_takeWhile (h : ∀ c ∈ text.head?, isNameStart c = true) :
    Lexeme.namePart text = text.takeWhile isNameChar := by
  cases text with
  | nil => rfl
  | cons c text =>
      have hc := h c rfl
      rw [Lexeme.namePart, if_pos hc, List.takeWhile_cons_of_pos (isNameChar_of_isNameStart hc)]

/-- A symbol of characters of names at the front of a text is not cut off from more of them exactly
if there are no more of them. -/
theorem splitsWord_eq_false_iff_takeWhile (hw : isNameLike symbol = true) (ne : symbol ≠ "")
    (h : g.startsWith text symbol = true) :
    splitsWord text symbol = false ↔
      symbol.toList.length = (text.takeWhile isNameChar).length := by
  have same := Grammar.sameText_take h
  have hlen : (text.take symbol.toList.length).length = symbol.toList.length := same.length_eq
  have hpart : text.takeWhile isNameChar = text.take symbol.toList.length ++
      (text.drop symbol.toList.length).takeWhile isNameChar := by
    conv_lhs => rw [← List.take_append_drop symbol.toList.length text]
    exact List.takeWhile_append_of_pos (forall_of_sameText isNameChar_toLower hw same)
  have hlast : symbol.toList.getLast?.any isNameChar = true := by
    have hs : symbol.toList ≠ [] := mt String.toList_eq_nil_iff.mp ne
    rw [List.getLast?_eq_some_getLast hs, Option.any_some]
    exact List.all_eq_true.mp hw _ (List.getLast_mem hs)
  unfold splitsWord
  rw [hlast, Bool.true_and, hpart, List.length_append, hlen]
  cases hrest : text.drop symbol.toList.length with
  | nil => simp
  | cons c rest =>
      by_cases hc : isNameChar c = true
      · simp [hc]
      · simp [hc]

/-- A word at the front of a text is not cut off from a longer name exactly if it is the whole
name. -/
theorem splitsWord_eq_false_iff (hw : isWord symbol = true) (ne : symbol ≠ "")
    (h : g.startsWith text symbol = true) :
    splitsWord text symbol = false ↔
      symbol.toList.length = (Lexeme.namePart text).length := by
  have same := Grammar.sameText_take h
  have hstart : ∀ c ∈ text.head?, isNameStart c = true := by
    intro c hc
    have hpos := Scan.length_pos_of_ne_empty ne
    refine forall_of_sameText isNameStart_toLower hw same c (List.mem_of_head? ?_)
    rwa [List.head?_take, if_neg (by omega)]
  rw [namePart_eq_takeWhile hstart]
  exact splitsWord_eq_false_iff_takeWhile (isNameLike_of_isWord hw) ne h

theorem splitsWord_eq_false (h : isPunctuation symbol = true) (text : List Char) :
    splitsWord text symbol = false := by
  have h := isNameChar_of_isPunctuation h
  unfold splitsWord
  cases hl : symbol.toList.getLast? with
  | none => rfl
  | some c => simp [h c (List.mem_of_getLast? hl)]

theorem namePart_eq_nil (ne : symbol ≠ "") (h : isPunctuation symbol = true)
    (hs : g.startsWith text symbol = true) : Lexeme.namePart text = [] := by
  have h := isNameChar_of_isPunctuation h
  unfold Grammar.startsWith at hs
  cases hl : symbol.toList with
  | nil => exact absurd (String.toList_eq_nil_iff.mp hl) ne
  | cons d ds =>
      rw [hl] at h hs
      cases text with
      | nil => rfl
      | cons c text =>
          obtain ⟨hc, -⟩ := Bool.and_eq_true_iff.mp hs
          have hd := isNameStart_eq_false_of_isNameChar (h d List.mem_cons_self)
          rw [Lexeme.namePart, isNameStart_of_sameChar hc, hd]
          rfl

/-! ### What comes next up to a cut -/

section choice

variable {α : Type} {length : α → Nat} {p q : α → Bool} {xs : List α} {x : α}

theorem find?_eq_of_imp (back : ∀ x ∈ xs, q x = true → p x = true)
    (keep : ∀ x, xs.find? p = some x → q x = true) : xs.find? q = xs.find? p := by
  induction xs with
  | nil => rfl
  | cons y ys ih =>
      rw [List.forall_mem_cons] at back
      by_cases hp : p y = true
      · rw [List.find?_cons_of_pos hp] at keep ⊢
        exact List.find?_cons_of_pos (keep y rfl)
      · rw [List.find?_cons_of_neg hp] at keep ⊢
        rw [List.find?_cons_of_neg fun hq => hp (back.1 hq)]
        exact ih back.2 keep

theorem firstLongest_filter (h : firstLongest length xs = some x) (hx : q x = true) :
    firstLongest length (xs.filter q) = some x := by
  induction xs generalizing x with
  | nil => cases h
  | cons y ys ih =>
      unfold firstLongest at h
      split at h
      · next hnone =>
        obtain rfl := firstLongest_eq_none.mp hnone
        obtain rfl := Option.some.inj h
        rw [List.filter_cons_of_pos hx]
        rfl
      · next z hz =>
        by_cases hlt : length y < length z
        · rw [if_pos hlt] at h
          obtain rfl := Option.some.inj h
          have hrest := ih hz hx
          by_cases hy : q y = true
          · rw [List.filter_cons_of_pos hy, firstLongest, hrest]
            exact if_pos hlt
          · rw [List.filter_cons_of_neg hy, hrest]
        · rw [if_neg hlt] at h
          obtain rfl := Option.some.inj h
          rw [List.filter_cons_of_pos hx, firstLongest]
          split
          · rfl
          · next w hw =>
            have hmem := List.mem_of_mem_filter (firstLongest_eq_some hw).1
            have := (firstLongest_eq_some hz).2 w hmem
            exact if_neg (by omega)

end choice

section cut

variable {s s' : Scan} {pair other : Parenthetical} {count : Nat}

namespace Grammar

/-- The same operator comes next, if the name at the front ends before the cut. -/
theorem operatorAt?_cut (spaced : g.Spaced) (ne : g.NoEmptySymbol) (hne : front ≠ [])
    (cut : ∀ c ∈ rest'.head?, g.CutsAt c)
    (hname : (Lexeme.namePart (front ++ rest)).length ≤ front.length)
    (hfound : ∀ symbol, g.operatorAt? (front ++ rest) = some symbol →
      symbol.toList.length ≤ front.length) :
    g.operatorAt? (front ++ rest') = g.operatorAt? (front ++ rest) := by
  -- A word is not cut off from the same names.
  have whole {symbol : String} (hmem : symbol ∈ g.operatorSymbols)
      (h : g.startsWith (front ++ rest) symbol = true)
      (h' : g.startsWith (front ++ rest') symbol = true) :
      splitsWord (front ++ rest') symbol = splitsWord (front ++ rest) symbol := by
    rcases spaced.word symbol hmem with hw | hn
    · have hs := splitsWord_eq_false_iff hw (ne.operator symbol hmem) h
      have hs' := splitsWord_eq_false_iff hw (ne.operator symbol hmem) h'
      rw [namePart_cut (fun c hc => (cut c hc).lexical) hname, ← hs] at hs'
      rwa [Bool.eq_iff_iff, ← not_iff_not, Bool.not_eq_true, Bool.not_eq_true]
    · rw [splitsWord_eq_false hn, splitsWord_eq_false hn]
  unfold operatorAt?
  apply find?_eq_of_imp
  · intro symbol hmem h
    rw [Bool.and_eq_true] at h ⊢
    have hback : g.startsWith (front ++ rest) symbol = true :=
      (startsWith_back hne (fun c hc => (cut c hc).operator symbol hmem) h.1).2
    exact ⟨hback, whole hmem hback h.1 ▸ h.2⟩
  · intro symbol hsome
    have h := List.find?_some hsome
    rw [Bool.and_eq_true] at h ⊢
    have hkeep := startsWith_keep h.1 (hfound symbol hsome) rest'
    exact ⟨hkeep, (whole (List.mem_of_find?_eq_some hsome) h.1 hkeep).symm ▸ h.2⟩

theorem openerAt?_cut (hne : front ≠ []) (cut : ∀ c ∈ rest'.head?, g.CutsAt c)
    (h : g.openerAt? (front ++ rest) = some pair)
    (hlen : pair.opener.toList.length ≤ front.length) :
    g.openerAt? (front ++ rest') = some pair := by
  have hbegins := (openerAt?_eq_some h).2.1
  have hkeep := startsWith_keep hbegins hlen rest'
  have hfilter := firstLongest_filter h (q := fun pair => g.startsWith (front ++ rest') pair.opener)
    hkeep
  unfold openerAt?
  rw [← hfilter, List.filter_filter]
  congr 1
  refine List.filter_congr fun other hmem => ?_
  rw [Bool.eq_iff_iff, Bool.and_eq_true]
  refine ⟨fun h => ⟨h, ?_⟩, fun h => h.1⟩
  exact (startsWith_back hne (fun c hc => ((cut c hc).delimiter other hmem).1) h).2

theorem exists_openerAt?_of_cut (hne : front ≠ []) (cut : ∀ c ∈ rest'.head?, g.CutsAt c)
    (h : g.openerAt? (front ++ rest') = some pair) :
    ∃ other, g.openerAt? (front ++ rest) = some other ∧
      symbolLength pair.opener ≤ symbolLength other.opener := by
  obtain ⟨hmem, hbegins, -⟩ := openerAt?_eq_some h
  have hback : g.startsWith (front ++ rest) pair.opener = true :=
    (startsWith_back hne (fun c hc => ((cut c hc).delimiter pair hmem).1) hbegins).2
  cases hold : g.openerAt? (front ++ rest) with
  | none =>
      rw [openerAt?_eq_none.mp hold pair hmem] at hback
      cases hback
  | some other => exact ⟨other, rfl, (openerAt?_eq_some hold).2.2 pair hmem hback⟩

theorem strayCloserAt?_cut (hne : front ≠ []) (cut : ∀ c ∈ rest'.head?, g.CutsAt c)
    (hoperator : g.operatorAt? (front ++ rest') = g.operatorAt? (front ++ rest))
    (h : g.strayCloserAt? (front ++ rest) = none) : g.strayCloserAt? (front ++ rest') = none := by
  unfold strayCloserAt? at h ⊢
  rw [lastLongest_eq_none, List.filter_eq_nil_iff] at h ⊢
  intro closer hmem hc
  refine h closer hmem ?_
  obtain ⟨pair, hpair, rfl⟩ := List.mem_map.mp hmem
  rw [Bool.and_eq_true] at hc ⊢
  rw [hoperator] at hc
  exact ⟨hc.1, (startsWith_back hne (fun c hc => ((cut c hc).delimiter pair hpair).2) hc.2).2⟩

end Grammar

namespace Scan

theorem closerAt?_of_startsWith (h : s.closerAt? g text = some pair)
    (hs : g.startsWith cs pair.closer = true) : s.closerAt? g cs = some pair := by
  obtain ⟨index, innermost, known, mayClose⟩ := closerAt?_eq_some_iff.mp h
  have place := (Bool.and_eq_true_iff.mp mayClose).2
  exact closerAt?_eq_some_iff.mpr
    ⟨index, innermost, known, Bool.and_eq_true_iff.mpr ⟨hs, place⟩⟩

theorem closerAt?_back (hne : front ≠ [])
    (cut : ∀ c ∈ rest'.head?, g.CutsAt c)
    (h : s.closerAt? g (front ++ rest') = some pair) :
    s.closerAt? g (front ++ rest) = some pair := by
  obtain ⟨known, hbegins, -⟩ := closerAt?_eq_some h
  exact closerAt?_of_startsWith h
    (Grammar.startsWith_back hne (fun c hc => ((cut c hc).delimiter _ known).2) hbegins).2

theorem delimiterAt?_cut_none (hne : front ≠ [])
    (cut : ∀ c ∈ rest'.head?, g.CutsAt c)
    (h : s.delimiterAt? g (front ++ rest) = none) : s.delimiterAt? g (front ++ rest') = none := by
  obtain ⟨hc, ho⟩ := delimiterAt?_eq_none_iff.mp h
  rw [delimiterAt?_eq_none_iff, Option.eq_none_iff_forall_ne_some,
    Option.eq_none_iff_forall_ne_some]
  constructor
  · intro pair hpair
    rw [closerAt?_back hne cut hpair] at hc
    cases hc
  · intro pair hpair
    obtain ⟨other, hother, -⟩ : ∃ other, g.openerAt? (front ++ rest) = some other ∧ _ :=
      Grammar.exists_openerAt?_of_cut hne cut hpair
    rw [hother] at ho
    cases ho

theorem OperatorNext.cut (next : OperatorNext g s (front ++ rest) symbol) (spaced : g.Spaced)
    (ne : g.NoEmptySymbol) (cut : ∀ c ∈ rest'.head?, g.CutsAt c)
    (hlen : symbol.toList.length ≤ front.length) :
    OperatorNext g s (front ++ rest') symbol := by
  obtain ⟨hmem, hbegins⟩ := Grammar.operatorAt?_eq_some next.found
  have hne : front ≠ [] := by
    rintro rfl
    have hnil : symbol.toList = [] := List.length_eq_zero_iff.mp (Nat.le_zero.mp hlen)
    exact ne.operator symbol hmem (String.toList_eq_nil_iff.mp hnil)
  have hname : (Lexeme.namePart (front ++ rest)).length ≤ front.length := by
    rcases spaced.word symbol hmem with hw | hn
    · have hsplit : splitsWord (front ++ rest) symbol = false := by
        have hfits := List.find?_some next.found
        rw [Bool.and_eq_true] at hfits
        simpa using hfits.2
      rwa [← (splitsWord_eq_false_iff hw (ne.operator symbol hmem) hbegins).mp hsplit]
    · rw [namePart_eq_nil (ne.operator symbol hmem) hn hbegins]
      exact Nat.zero_le _
  have hoperator : g.operatorAt? (front ++ rest') = g.operatorAt? (front ++ rest) := by
    refine Grammar.operatorAt?_cut spaced ne hne cut hname fun other hother => ?_
    rw [next.found, Option.some.injEq] at hother
    rwa [← hother]
  exact ⟨delimiterAt?_cut_none hne cut next.plain,
    Grammar.strayCloserAt?_cut hne cut hoperator next.noStray, hoperator.trans next.found⟩

theorem LexemeNext.cut {kind : Lexeme} (next : LexemeNext g s (front ++ rest) kind piece)
    (spaced : g.Spaced) (ne : g.NoEmptySymbol)
    (cut : ∀ c ∈ rest'.head?, g.CutsAt c) (hlen : piece.length ≤ front.length)
    (hk : kind ≠ .separator) : LexemeNext g s (front ++ rest') kind piece := by
  have hne : front ≠ [] := by
    rintro rfl
    exact (Lexeme.read?_eq_some next.found).2 (List.length_eq_zero_iff.mp (Nat.le_zero.mp hlen))
  have lexical : ∀ c ∈ rest'.head?, isLexical c = false := fun c hc => (cut c hc).lexical
  have hread : Lexeme.read? (front ++ rest') = some (kind, piece) ∧
      (Lexeme.namePart (front ++ rest)).length ≤ front.length := by
    cases kind with
    | separator => exact absurd rfl hk
    | number =>
        obtain ⟨rfl, hpart⟩ := Lexeme.read?_eq_number.mp next.found
        refine ⟨Lexeme.read?_eq_number.mpr ⟨numberPart_cut lexical hlen, hpart⟩, ?_⟩
        rw [Lexeme.namePart_eq_nil_of_number hpart]
        exact Nat.zero_le _
    | name =>
        obtain ⟨hnumber, rfl, hpart⟩ := Lexeme.read?_eq_name.mp next.found
        have hnumber' : Lexeme.numberPart (front ++ rest') = Lexeme.numberPart (front ++ rest) :=
          numberPart_cut lexical (by simp [hnumber])
        exact ⟨Lexeme.read?_eq_name.mpr
          ⟨hnumber'.trans hnumber, namePart_cut lexical hlen, hpart⟩, hlen⟩
  have hoperator : g.operatorAt? (front ++ rest') = g.operatorAt? (front ++ rest) := by
    refine Grammar.operatorAt?_cut spaced ne hne cut hread.2 fun other hother => ?_
    rw [next.noOperator] at hother
    cases hother
  exact ⟨delimiterAt?_cut_none hne cut next.plain,
    Grammar.strayCloserAt?_cut hne cut hoperator next.noStray, hoperator.trans next.noOperator,
    hread.1⟩

theorem startsWith_argumentOpener_eq (spaced : g.Spaced) (h : cs.head? = ds.head?) :
    g.startsWith cs g.argumentOpener = g.startsWith ds g.argumentOpener := by
  have one {text : List Char} : g.startsWith text g.argumentOpener =
      text.head?.any fun c => sameChar g.caseSensitive c (g.argumentOpener.toList.headI) := by
    obtain ⟨d, hd⟩ := List.length_eq_one_iff.mp spaced.argumentOpener
    unfold Grammar.startsWith
    rw [hd]
    cases text with
    | nil => rfl
    | cons c text => simp [beginsWith]
  rw [one, one, h]

theorem head?_skipBlanks_append (ahead : (skipBlanks rest').head? = (skipBlanks rest).head?)
    (front : List Char) :
    (skipBlanks (front ++ rest')).head? = (skipBlanks (front ++ rest)).head? := by
  induction front with
  | nil => exact ahead
  | cons c front ih =>
      unfold skipBlanks at ih ⊢
      by_cases hc : isBlank c = true
      · rw [List.cons_append, List.cons_append, List.dropWhile_cons_of_pos hc,
          List.dropWhile_cons_of_pos hc, ih]
      · rw [List.cons_append, List.cons_append, List.dropWhile_cons_of_neg hc,
          List.dropWhile_cons_of_neg hc, List.head?_cons, List.head?_cons]

/-- A look-ahead that sees the same, or that sees nothing behind a name that is no function, gives
the name the same role. -/
theorem nameKind_eq_of_ahead {name : String}
    (ahead : g.startsWith (skipBlanks cs) g.argumentOpener =
        g.startsWith (skipBlanks ds) g.argumentOpener ∨
      nameKind g name ds = .identifier ∧
        g.startsWith (skipBlanks cs) g.argumentOpener = false) :
    nameKind g name cs = nameKind g name ds := by
  rcases ahead with h | ⟨hk, h⟩
  · unfold nameKind
    rw [h]
  · rw [hk]
    unfold nameKind
    rw [h, Bool.and_false]
    rfl

/-- **A step looks no further than a cut.**  If a text goes on otherwise behind the piece that a
step reads, with a character that cuts it or not at all, and no argument list is seen or missed
because of it, the step is the same. -/
theorem Step.cut_of_ahead (step : Step g s (front ++ rest) s' count) (spaced : g.Spaced)
    (ne : g.NoEmptySymbol) (cut : ∀ c ∈ rest'.head?, g.CutsAt c)
    (ahead : g.startsWith (skipBlanks ((front ++ rest').drop count)) g.argumentOpener =
        g.startsWith (skipBlanks ((front ++ rest).drop count)) g.argumentOpener ∨
      s'.expectsOperand = false ∧
        g.startsWith (skipBlanks ((front ++ rest').drop count)) g.argumentOpener = false)
    (hlen : count ≤ front.length) (written : s'.inOrder ≠ s.inOrder) :
    Step g s (front ++ rest') s' count := by
  have hne : front ≠ [] := by
    rintro rfl
    obtain ⟨pos, -⟩ := step.emits ne
    exact absurd (Nat.lt_of_lt_of_le pos hlen) (Nat.lt_irrefl 0)
  cases step with
  | @opens pair base found room shallow =>
      obtain ⟨ho, hc⟩ := delimiterAt?_eq_opens found
      refine Step.opens (delimiterAt?_of_opens (Grammar.openerAt?_cut hne cut ho hlen) ?_) room
        shallow
      exact fun other hother => hc other (closerAt?_back hne cut hother)
  | @closes pair found =>
      obtain ⟨hc, ho⟩ := delimiterAt?_eq_closes found
      obtain ⟨-, hbegins, -⟩ := closerAt?_eq_some hc
      refine Step.closes (delimiterAt?_of_closes
        (closerAt?_of_startsWith hc (Grammar.startsWith_keep hbegins hlen rest')) ?_)
      intro other hother
      obtain ⟨longer, hlonger, hle⟩ := Grammar.exists_openerAt?_of_cut hne cut hother
      exact hle.trans (ho longer hlonger)
  | preUnary next role room only =>
      exact Step.preUnary (next.cut spaced ne cut hlen) role room only
  | between next place role => exact Step.between (next.cut spaced ne cut hlen) place role
  | postUnary next place role only =>
      exact Step.postUnary (next.cut spaced ne cut hlen) place role only
  | separator => exact absurd rfl written
  | number next room =>
      exact Step.number (next.cut spaced ne cut hlen Lexeme.noConfusion) room
  | @name piece base next room =>
      have := Step.name (next.cut spaced ne cut hlen Lexeme.noConfusion) room
      rwa [nameKind_eq_of_ahead (ahead.imp_right fun h => ⟨?_, h.2⟩)] at this
      refine (nameKind_eq g _ _).resolve_right fun hk => ?_
      have hexpects := h.1
      rw [expectsOperand_eq, inOrder_push, endsOperand_concat, hk] at hexpects
      cases hexpects

/-- So is a step before a separator, if the first character that is not blank is the same. -/
theorem Step.cut (step : Step g s (front ++ rest) s' count) (spaced : g.Spaced)
    (ne : g.NoEmptySymbol) (cut : ∀ c ∈ rest'.head?, isSeparator c = true)
    (ahead : (skipBlanks rest').head? = (skipBlanks rest).head?) (hlen : count ≤ front.length)
    (written : s'.inOrder ≠ s.inOrder) : Step g s (front ++ rest') s' count := by
  refine step.cut_of_ahead spaced ne (fun c hc => spaced.cutsAt (cut c hc)) (Or.inl ?_) hlen
    written
  rw [List.drop_append_of_le_length hlen, List.drop_append_of_le_length hlen]
  exact startsWith_argumentOpener_eq spaced (head?_skipBlanks_append ahead _)

end Scan

end cut

end OperatorGrammar
