import Mathlib.Data.List.Dedup
import Mathlib.Data.List.Induction
import GrammarInduction.Grammar.Vocabulary

/-!
# What a vocabulary has registered

However terminals and non-terminals are offered, the two maps stay inverse to each other and the symbols given
out are the first of each kind, as many as there are words whose first offer was of that kind.  A later offer
of the same word, of either kind, changes nothing.  All this needs counters that have not wrapped around, so
there must be fewer than `2 ^ 31` different words.

* `Vocabulary.Records` — what a vocabulary has to do with the offers made to it;
* `Vocabulary.Records.offer`, `Vocabulary.exists_records` — one more offer keeps it, so it holds of all runs;
* `Vocabulary.translates_of_offers` — words and symbols are in one-to-one correspondence, and sentences
  can be read back;
* `Vocabulary.kinds_of_offers` — a symbol is of the kind that its word was first offered as, and not always of
  the kind asked for;
* `Vocabulary.not_kinds_respected` — so the word of a non-terminal can be spelt in a sentence.
-/

namespace GrammarInduction.Vocabulary

/-- A word offered to a vocabulary, and what it is offered as. -/
structure Offer where
  kind : Kind
  word : String
deriving DecidableEq, Repr

/-- The vocabulary after some offers, from the first to the last. -/
def run (v : Vocabulary) (offers : List Offer) : Vocabulary :=
  offers.foldl (fun v offer => (v.intern offer.kind offer.word).2) v

/-- The vocabulary that has had some offers and no others. -/
def ofOffers (offers : List Offer) : Vocabulary := empty.run offers

/-- The different words among some offers. -/
def offered (offers : List Offer) : List String := (offers.map Offer.word).dedup

/-- What a word was offered as first. -/
def firstKind? (offers : List Offer) (w : String) : Option Kind :=
  (offers.find? fun offer => offer.word = w).map Offer.kind

theorem ofOffers_append (offers later : List Offer) :
    ofOffers (offers ++ later) = (ofOffers offers).run later := List.foldl_append

theorem ofOffers_concat (offers : List Offer) (offer : Offer) :
    ofOffers (offers ++ [offer]) = ((ofOffers offers).intern offer.kind offer.word).2 :=
  ofOffers_append offers [offer]

theorem mem_offered {offers : List Offer} {w : String} :
    w ∈ offered offers ↔ w ∈ offers.map Offer.word := List.mem_dedup

theorem firstKind?_concat (offers : List Offer) (offer : Offer) (w : String) :
    firstKind? (offers ++ [offer]) w
      = (firstKind? offers w).or (if offer.word = w then some offer.kind else none) := by
  unfold firstKind?
  rw [List.find?_append, List.find?_singleton]
  by_cases hw : offer.word = w <;> cases offers.find? fun offer => offer.word = w <;> simp [hw]

theorem isSome_firstKind? {offers : List Offer} {w : String} :
    (firstKind? offers w).isSome = true ↔ w ∈ offers.map Offer.word := by
  simp [firstKind?]

/-- A word that was offered before is no further one. -/
theorem length_offered_concat (offers : List Offer) (offer : Offer) :
    (offered (offers ++ [offer])).length
      = (offered offers).length + if offer.word ∈ offers.map Offer.word then 0 else 1 := by
  have hperm : (offered (offers ++ [offer])).Perm ((offer.word :: offers.map Offer.word).dedup) := by
    unfold offered
    rw [List.map_append, List.map_singleton]
    exact (List.perm_append_singleton _ _).dedup
  rw [hperm.length_eq]
  split
  · rename_i hmem
    rw [List.dedup_cons_of_mem hmem, Nat.add_zero]
    rfl
  · rename_i hnew
    rw [List.dedup_cons_of_notMem hnew, List.length_cons]
    rfl

/-! ## The symbols of a kind -/

/-- The symbol of a kind at a place. -/
def Kind.nth : Kind → Nat → Int
  | terminal, i => -(i + 1)
  | nonTerminal, i => i + 1

/-- The kind of a symbol that was given out. -/
def kindOf (s : Int) : Kind := if s < 0 then .terminal else .nonTerminal

theorem kindOf_nth (kind : Kind) (i : Nat) : kindOf (kind.nth i) = kind := by
  cases kind
  · exact if_pos (by simp only [Kind.nth]; omega)
  · exact if_neg (by simp only [Kind.nth]; omega)

theorem nth_inj {kind : Kind} {i j : Nat} (h : kind.nth i = kind.nth j) : i = j := by
  cases kind <;> simp only [Kind.nth] at h <;> omega

/-- With one more symbol of a kind there is the next one. -/
theorem exists_nth_update {given : Kind → Nat} {kind : Kind} {s : Int} :
    (∃ other, ∃ i < Function.update given kind (given kind + 1) other, s = other.nth i)
      ↔ s = kind.nth (given kind) ∨ ∃ other, ∃ i < given other, s = other.nth i := by
  constructor
  · rintro ⟨other, i, hi, rfl⟩
    by_cases hother : other = kind
    · subst hother
      rw [Function.update_self] at hi
      rcases Nat.lt_succ_iff_lt_or_eq.mp hi with hlt | rfl
      · exact Or.inr ⟨other, i, hlt, rfl⟩
      · exact Or.inl rfl
    · rw [Function.update_of_ne hother] at hi
      exact Or.inr ⟨other, i, hi, rfl⟩
  · rintro (rfl | ⟨other, i, hi, rfl⟩)
    · exact ⟨kind, given kind, by simp, rfl⟩
    · refine ⟨other, i, Nat.lt_of_lt_of_le hi ?_, rfl⟩
      by_cases hother : other = kind
      · subst hother
        rw [Function.update_self]
        exact Nat.le_succ _
      · exact Nat.le_of_eq (Function.update_of_ne hother _ _).symm

theorem wrap_nth {kind : Kind} {i : Nat} (h : i + 1 < 0x80000000) : wrap (kind.nth i) = kind.nth i := by
  have hlow : -(2 ^ 31 : Int) ≤ kind.nth i := by cases kind <;> simp only [Kind.nth] <;> omega
  have hhigh : kind.nth i < (2 ^ 31 : Int) := by cases kind <;> simp only [Kind.nth] <;> omega
  exact Int.bmod_eq_of_le (by omega) (by omega)

theorem wrap_wrap_add (kind : Kind) (i : Nat) :
    wrap (wrap (kind.nth i) + kind.stride) = wrap (kind.nth (i + 1)) := by
  have hnth : kind.nth i + kind.stride = kind.nth (i + 1) := by
    cases kind <;> simp only [Kind.nth, Kind.stride] <;> omega
  rw [← hnth]
  exact Int.bmod_add_bmod

/-! ## What a vocabulary records -/

variable {v : Vocabulary} {offers : List Offer} {given : Kind → Nat} {w : String} {s : Symbol}

/-- The vocabulary is as the offers have left it, with so many symbols of each kind given out. -/
structure Records (v : Vocabulary) (offers : List Offer) (given : Kind → Nat) : Prop where
  paired : ∀ w s, v.symbol? w = some s ↔ v.word? s = some w
  symbols : ∀ s, (v.word? s).isSome = true ↔ ∃ kind, ∃ i < given kind, s = kind.nth i
  kinds : ∀ w, (v.symbol? w).map kindOf = firstKind? offers w
  next : ∀ kind, v.next kind = wrap (kind.nth (given kind))
  count : given .terminal + given .nonTerminal = (offered offers).length

theorem records_empty : Records empty [] fun _ => 0 where
  paired w s := by simp
  symbols s := by simp
  kinds w := by simp [firstKind?]
  next kind := by cases kind <;> rfl
  count := rfl

/-- The words that have a symbol are those that were offered. -/
theorem Records.isSome_symbol? (h : Records v offers given) :
    (v.symbol? w).isSome = true ↔ w ∈ offers.map Offer.word := by
  rw [← isSome_firstKind?, ← h.kinds, Option.isSome_map]

/-- As long as the counters have not wrapped around, the next symbol is one that was not given out. -/
theorem Records.next_eq (h : Records v offers given) (hfew : (offered offers).length + 1 < 0x80000000)
    (kind : Kind) : v.next kind = kind.nth (given kind) := by
  rw [h.next, wrap_nth]
  have hcount := h.count
  cases kind <;> omega

theorem Records.word?_next (h : Records v offers given)
    (hfew : (offered offers).length + 1 < 0x80000000) (kind : Kind) :
    v.word? (v.next kind) = none := by
  rw [← Option.not_isSome_iff_eq_none, h.symbols, h.next_eq hfew]
  rintro ⟨other, i, hi, heq⟩
  obtain rfl : kind = other := by rw [← kindOf_nth kind (given kind), heq, kindOf_nth]
  exact absurd (nth_inj heq) (by omega)

/-- A word that is offered again changes nothing. -/
theorem Records.offer_known (h : Records v offers given) (offer : Offer)
    (hknown : offer.word ∈ offers.map Offer.word) : Records v (offers ++ [offer]) given where
  paired := h.paired
  symbols := h.symbols
  kinds w := by
    rw [firstKind?_concat, ← h.kinds]
    by_cases hw : offer.word = w
    · obtain ⟨s, hs⟩ := Option.isSome_iff_exists.mp (h.isSome_symbol?.mpr (hw ▸ hknown))
      rw [hs]
      rfl
    · rw [if_neg hw, Option.or_none]
  next := h.next
  count := by rw [length_offered_concat, if_pos hknown, Nat.add_zero, h.count]

/-- A new word gets the next symbol of its kind. -/
theorem Records.offer_new (h : Records v offers given) (offer : Offer)
    (hfew : (offered offers).length + 1 < 0x80000000)
    (hnew : offer.word ∉ offers.map Offer.word) :
    Records ((v.advance offer.kind).enter offer.word (v.next offer.kind)) (offers ++ [offer])
      (Function.update given offer.kind (given offer.kind + 1)) := by
  have hword : v.symbol? offer.word = none := by
    rw [← Option.not_isSome_iff_eq_none, h.isSome_symbol?]
    exact hnew
  have hsymbol := h.word?_next hfew offer.kind
  refine ⟨fun w s => ?_, fun s => ?_, fun w => ?_, fun kind => ?_, ?_⟩
  · -- The new word and the new symbol are both in no other pair.
    rw [symbol?_enter, symbol?_advance, word?_enter, word?_advance]
    by_cases hw : offer.word = w <;> by_cases hs : v.next offer.kind = s
    · simp [hw, hs]
    · have hother : v.word? s ≠ some w := by
        rw [Ne, ← h.paired, ← hw, hword]
        exact (Option.some_ne_none s).symm
      simp [hw, hs, hother]
    · have hother : v.symbol? w ≠ some s := by
        rw [Ne, h.paired, ← hs, hsymbol]
        exact (Option.some_ne_none w).symm
      simp [hw, hs, hother]
    · simp [hw, hs, h.paired]
  · rw [word?_enter, word?_advance, exists_nth_update, ← h.symbols, ← h.next_eq hfew]
    by_cases hs : v.next offer.kind = s <;> simp [hs, eq_comm (a := s)]
  · rw [symbol?_enter, symbol?_advance, firstKind?_concat, ← h.kinds]
    by_cases hw : offer.word = w
    · rw [if_pos hw, if_pos hw, ← hw, hword, h.next_eq hfew]
      simp [kindOf_nth]
    · rw [if_neg hw, if_neg hw, Option.or_none]
  · rw [next_enter, next_advance]
    by_cases hkind : kind = offer.kind
    · subst hkind
      rw [if_pos rfl, Function.update_self, h.next, wrap_wrap_add]
    · rw [if_neg hkind, Function.update_of_ne hkind, h.next]
  · rw [length_offered_concat, if_neg hnew, ← h.count]
    cases hkind : offer.kind <;> simp <;> omega

/-- **One more offer is recorded**, unless there are too many words. -/
theorem Records.offer (h : Records v offers given) (offer : Offer)
    (hfew : (offered (offers ++ [offer])).length < 0x80000000) :
    ∃ given', Records (v.intern offer.kind offer.word).2 (offers ++ [offer]) given' := by
  by_cases hmem : offer.word ∈ offers.map Offer.word
  · obtain ⟨s, hs⟩ := Option.isSome_iff_exists.mp (h.isSome_symbol?.mpr hmem)
    rw [intern_of_known hs]
    exact ⟨given, h.offer_known offer hmem⟩
  · rw [length_offered_concat, if_neg hmem] at hfew
    have hnone : v.symbol? offer.word = none := by
      rw [← Option.not_isSome_iff_eq_none, h.isSome_symbol?]
      exact hmem
    rw [intern_of_unknown hnone]
    exact ⟨_, h.offer_new offer hfew hmem⟩

/-- **A vocabulary records the offers made to it.** -/
theorem exists_records (hfew : (offered offers).length < 0x80000000) :
    ∃ given, Records (ofOffers offers) offers given := by
  induction offers using List.reverseRecOn with
  | nil => exact ⟨_, records_empty⟩
  | append_singleton offers offer ih =>
      have hfewer := hfew
      rw [length_offered_concat] at hfewer
      obtain ⟨given, h⟩ := ih (by omega)
      rw [ofOffers_concat]
      exact h.offer offer hfew

/-- A symbol once given to a word stays with it, whatever is offered later. -/
theorem symbol?_run (hs : v.symbol? w = some s) (later : List Offer) :
    (v.run later).symbol? w = some s := by
  induction later generalizing v with
  | nil => exact hs
  | cons offer later ih =>
      refine ih ?_
      show (v.intern offer.kind offer.word).2.symbol? w = some s
      cases hknown : v.symbol? offer.word with
      | some t => rwa [intern_of_known hknown]
      | none =>
          have hne : offer.word ≠ w := by
            rintro rfl
            rw [hs] at hknown
            cases hknown
          rw [intern_of_unknown hknown, symbol?_enter, symbol?_advance, if_neg hne, hs]

/-- The symbol that an offer is answered with is that of its word. -/
theorem symbol?_intern (v : Vocabulary) (kind : Kind) (w : String) :
    (v.intern kind w).2.symbol? w = some (v.intern kind w).1 := by
  cases hs : v.symbol? w with
  | some s => rw [intern_of_known hs, hs]
  | none => rw [intern_of_unknown hs, symbol?_enter, if_pos rfl]

/-! ## Sentences -/

/-- Registered words are spelt with symbols that can be read back. -/
theorem exists_spelling (hpaired : ∀ w s, v.symbol? w = some s ↔ v.word? s = some w)
    {words : List String} (hwords : ∀ w ∈ words, (v.symbol? w).isSome = true) :
    ∃ symbols, words.mapM v.symbol = .ok symbols ∧ symbols.mapM v.word = .ok words := by
  induction words with
  | nil => exact ⟨[], rfl, rfl⟩
  | cons w words ih =>
      rw [List.forall_mem_cons] at hwords
      obtain ⟨s, hs⟩ := Option.isSome_iff_exists.mp hwords.1
      obtain ⟨symbols, hspelt, hread⟩ := ih hwords.2
      refine ⟨s :: symbols, ?_, ?_⟩
      · rw [List.mapM_cons, symbol_eq_ok_iff.mpr hs, hspelt]
        rfl
      · rw [List.mapM_cons, word_eq_ok_iff.mpr ((hpaired w s).mp hs), hread]
        rfl

/-- The first word that is not registered is the one that is told. -/
theorem spelling_of_unknown {before after : List String}
    (hbefore : ∀ u ∈ before, (v.symbol? u).isSome = true) (hw : v.symbol? w = none) :
    (before ++ w :: after).mapM v.symbol = .error (.word w) := by
  induction before with
  | nil =>
      rw [List.nil_append, List.mapM_cons, symbol_of_unknown hw]
      rfl
  | cons u before ih =>
      rw [List.forall_mem_cons] at hbefore
      obtain ⟨s, hs⟩ := Option.isSome_iff_exists.mp hbefore.1
      rw [List.cons_append, List.mapM_cons, symbol_eq_ok_iff.mpr hs, ih hbefore.2]
      rfl

/-- What holds of the symbols of a spelling is what holds of the symbols of its words. -/
theorem forall_mem_spelling {words : List String} {symbols : List Symbol}
    (h : words.mapM v.symbol = .ok symbols) {P : Symbol → Prop} :
    (∀ s ∈ symbols, P s) ↔ ∀ w ∈ words, ∃ s, v.symbol? w = some s ∧ P s := by
  induction words generalizing symbols with
  | nil =>
      cases h
      simp
  | cons w words ih =>
      rw [List.mapM_cons] at h
      cases hs : v.symbol? w with
      | none =>
          rw [symbol_of_unknown hs] at h
          cases h
      | some s =>
          rw [symbol_eq_ok_iff.mpr hs] at h
          cases hrest : words.mapM v.symbol with
          | error e =>
              rw [hrest] at h
              cases h
          | ok rest =>
              rw [hrest] at h
              cases h
              simp [ih hrest, hs]

/-! ## One-to-one correspondence -/

theorem Records.terminalCount_eq (h : Records v offers given)
    (hfew : (offered offers).length < 0x80000000) : v.terminalCount = given .terminal := by
  have hcount := h.count
  have hnext : v.nextTerminal = wrap (-(given .terminal + 1 : Int)) := h.next .terminal
  have hwrap : wrap (-1 - v.nextTerminal) = given .terminal := by
    rw [hnext]
    show (-1 - (-(given .terminal + 1 : Int)).bmod 0x100000000).bmod 0x100000000 = _
    rw [Int.sub_bmod_bmod, show (-1 - -(given .terminal + 1 : Int)) = given .terminal by omega]
    exact Int.bmod_eq_of_le (by omega) (by omega)
  rw [terminalCount, hwrap]
  omega

/-- The vocabulary pairs some words, and no others, with the first symbols of each kind, and sentences of these
words can be read back. -/
structure Translates (v : Vocabulary) (words : List String) : Prop where
  paired : ∀ w s, v.symbol w = .ok s ↔ v.word s = .ok w
  registered : ∀ w, (∃ s, v.symbol w = .ok s) ↔ w ∈ words
  numbered : ∃ others, v.terminalCount + others = words.length ∧
    ∀ s : Int, (∃ w, v.word s = .ok w) ↔ -(v.terminalCount : Int) ≤ s ∧ s < 0 ∨ 0 < s ∧ s ≤ others
  spelt : ∀ text label, (∀ w ∈ Text.words text, w ∈ words) →
    ∃ symbols, v.sentence text label = .ok ⟨symbols, label⟩
      ∧ symbols.mapM v.word = .ok (Text.words text)
  unknown : ∀ text label before w after, Text.words text = before ++ w :: after →
    (∀ u ∈ before, u ∈ words) → w ∉ words → v.sentence text label = .error (.word w)

theorem Records.exists_word_iff (h : Records v offers given) (s : Int) :
    (∃ w, v.word s = .ok w)
      ↔ -(given .terminal : Int) ≤ s ∧ s < 0 ∨ 0 < s ∧ s ≤ given .nonTerminal := by
  simp only [word_eq_ok_iff, ← Option.isSome_iff_exists, h.symbols]
  constructor
  · rintro ⟨kind | kind, i, hi, rfl⟩ <;> simp only [Kind.nth] <;> omega
  · rintro (⟨hlow, hhigh⟩ | ⟨hlow, hhigh⟩)
    · refine ⟨.terminal, (-s - 1).toNat, by omega, ?_⟩
      show (s : Int) = -((-s - 1).toNat + 1)
      omega
    · refine ⟨.nonTerminal, (s - 1).toNat, by omega, ?_⟩
      show (s : Int) = (s - 1).toNat + 1
      omega

theorem Records.translates (h : Records v offers given) (hfew : (offered offers).length < 0x80000000) :
    v.Translates (offered offers) where
  paired w s := by rw [symbol_eq_ok_iff, word_eq_ok_iff, h.paired]
  registered w := by
    simp only [symbol_eq_ok_iff, ← Option.isSome_iff_exists, h.isSome_symbol?, mem_offered]
  numbered := by
    rw [h.terminalCount_eq hfew]
    exact ⟨given .nonTerminal, h.count, h.exists_word_iff⟩
  spelt text label hwords := by
    have hsome : ∀ w ∈ Text.words text, (v.symbol? w).isSome = true :=
      fun w hw => h.isSome_symbol?.mpr (mem_offered.mp (hwords w hw))
    obtain ⟨symbols, hspelt, hread⟩ := exists_spelling h.paired hsome
    refine ⟨symbols, ?_, hread⟩
    rw [sentence, hspelt]
    rfl
  unknown text label before w after htext hbefore hw := by
    have hsome : ∀ u ∈ before, (v.symbol? u).isSome = true :=
      fun u hu => h.isSome_symbol?.mpr (mem_offered.mp (hbefore u hu))
    have hnone : v.symbol? w = none := by
      rw [← Option.not_isSome_iff_eq_none, h.isSome_symbol?, ← mem_offered]
      exact hw
    rw [sentence, htext, spelling_of_unknown hsome hnone]
    rfl

/-- **Words and symbols are in one-to-one correspondence.**  Whatever words are offered, as terminals or as
non-terminals, as long as there are fewer than `2 ^ 31` different ones, a vocabulary pairs just these with the
first symbols of each kind, and every symbol that an offer was answered with is still that of its word. -/
theorem translates_of_offers (hfew : (offered offers).length < 0x80000000) :
    (ofOffers offers).Translates (offered offers)
      ∧ ∀ earlier offer later, offers = earlier ++ offer :: later →
        (ofOffers offers).symbol offer.word
          = .ok ((ofOffers earlier).intern offer.kind offer.word).1 := by
  obtain ⟨given, h⟩ := exists_records hfew
  refine ⟨h.translates hfew, ?_⟩
  rintro earlier offer later rfl
  rw [symbol_eq_ok_iff, ofOffers_append]
  exact symbol?_run (symbol?_intern _ _ _) later

/-- Two words, each offered as both kinds, and a third. -/
theorem translates_clash :
    let offers : List Offer :=
      [⟨.terminal, "a"⟩, ⟨.nonTerminal, "S"⟩, ⟨.nonTerminal, "a"⟩, ⟨.terminal, "S"⟩, ⟨.terminal, "b"⟩]
    (offered offers).length < 0x80000000 ∧ offered offers = ["a", "S", "b"]
      ∧ (ofOffers offers).Translates (offered offers)
      ∧ (ofOffers offers).sentence "b  S\na" .positive = .ok ⟨[-2, 1, -1], .positive⟩
      ∧ (ofOffers offers).sentence "a c d" .positive = .error (.word "c") := by
  intro offers
  have hfew : (offered offers).length < 0x80000000 := by decide +kernel
  have h := (translates_of_offers hfew).1
  have hwords : Text.words "a c d" = ["a"] ++ "c" :: ["d"] := by decide +kernel
  refine ⟨hfew, ?_, h, ?_, h.unknown _ _ _ _ _ hwords ?_ ?_⟩
  · decide +kernel
  · decide +kernel
  · decide +kernel
  · decide +kernel

/-! ## Kinds -/

/-- A symbol that was given out is of the kind of the first offer of its word. -/
theorem Records.kindOf_eq (h : Records v offers given) (hs : v.symbol? w = some s) :
    firstKind? offers w = some (kindOf s) := by
  rw [← h.kinds, hs]
  rfl

/-- Holds of the symbols of a kind. -/
def Kind.Holds : Kind → Symbol → Prop
  | terminal, s => s.isTerminal = true
  | nonTerminal, s => s.isNonTerminal = true

/-- No symbol that is given out is zero, so it is of one kind and not of the other. -/
theorem holds_nth {kind other : Kind} {i : Nat} : kind.Holds (other.nth i) ↔ other = kind := by
  have hterminal : ∀ s : Int, Kind.terminal.Holds s ↔ s < 0 := fun s => decide_eq_true_iff
  have hnonTerminal : ∀ s : Int, Kind.nonTerminal.Holds s ↔ 0 < s := fun s => decide_eq_true_iff
  cases kind <;> cases other <;>
    simp only [hterminal, hnonTerminal, Kind.nth, reduceCtorEq, iff_true, iff_false] <;> omega

theorem Records.holds_iff (h : Records v offers given) (hs : v.symbol? w = some s) (kind : Kind) :
    kind.Holds s ↔ firstKind? offers w = some kind := by
  have hword : (v.word? s).isSome = true := by
    rw [(h.paired w s).mp hs]
    rfl
  obtain ⟨other, i, -, rfl⟩ := (h.symbols s).mp hword
  rw [holds_nth, h.kindOf_eq hs, kindOf_nth, Option.some.injEq]

/-- **A symbol is of the kind that its word was offered as first.**  So an offer is answered with a symbol of
its own kind unless the word was offered as the other kind before, and a sentence has terminals alone just if
each of its words was offered as a terminal first. -/
theorem kinds_of_offers {kind : Kind} (hfew : (offered (offers ++ [⟨kind, w⟩])).length < 0x80000000) :
    (kind.Holds ((ofOffers offers).intern kind w).1
        ↔ ∀ first, firstKind? offers w = some first → first = kind)
      ∧ ∀ text label σ, (ofOffers offers).sentence text label = .ok σ →
        ((∀ s ∈ σ.symbols, s.isTerminal = true)
          ↔ ∀ u ∈ Text.words text, firstKind? offers u = some .terminal) := by
  constructor
  · obtain ⟨given, h⟩ := exists_records hfew
    have hanswer := symbol?_intern (ofOffers offers) kind w
    rw [ofOffers_concat] at h
    rw [h.holds_iff hanswer, firstKind?_concat, if_pos rfl]
    cases firstKind? offers w <;> simp
  · intro text label σ hσ
    have hfewer : (offered offers).length < 0x80000000 := by
      rw [length_offered_concat] at hfew
      omega
    obtain ⟨given, h⟩ := exists_records hfewer
    unfold sentence at hσ
    cases hspelt : (Text.words text).mapM (ofOffers offers).symbol with
    | error e =>
        rw [hspelt] at hσ
        cases hσ
    | ok symbols =>
        rw [hspelt] at hσ
        cases hσ
        show (∀ s ∈ symbols, Kind.terminal.Holds s) ↔ _
        rw [forall_mem_spelling hspelt]
        refine forall₂_congr fun u _ => ?_
        constructor
        · rintro ⟨s, hs, hterminal⟩
          exact (h.holds_iff hs .terminal).mp hterminal
        · intro hfirst
          obtain ⟨s, hs⟩ := Option.isSome_iff_exists.mp (h.isSome_symbol?.mpr
            (isSome_firstKind?.mp (by rw [hfirst]; rfl)))
          exact ⟨s, hs, (h.holds_iff hs .terminal).mpr hfirst⟩

/-- A word that was a terminal first is offered as a non-terminal, and a sentence spells both kinds. -/
theorem kinds_of_offers_clash :
    let offers : List Offer := [⟨.terminal, "a"⟩, ⟨.nonTerminal, "S"⟩]
    (offered (offers ++ [⟨.nonTerminal, "a"⟩])).length < 0x80000000
      ∧ ¬ Kind.nonTerminal.Holds ((ofOffers offers).intern .nonTerminal "a").1
      ∧ (ofOffers offers).sentence "a S" .positive = .ok ⟨[-1, 1], .positive⟩
      ∧ ¬ ∀ s ∈ ([-1, 1] : List Symbol), s.isTerminal = true := by
  intro offers
  have hfew : (offered (offers ++ [⟨.nonTerminal, "a"⟩])).length < 0x80000000 := by decide +kernel
  have h := kinds_of_offers hfew
  have hspelt : (ofOffers offers).sentence "a S" .positive = .ok ⟨[-1, 1], .positive⟩ := by
    decide +kernel
  refine ⟨hfew, ?_, hspelt, ?_⟩
  · rw [h.1]
    exact fun hfirst => absurd (hfirst .terminal (by decide +kernel)) (by decide)
  · rw [h.2 "a S" .positive _ hspelt]
    exact fun hfirst => absurd (hfirst "S" (by decide +kernel)) (by decide +kernel)

/-- A word that was a terminal first keeps its symbol when it is offered as a non-terminal, and the word of a
non-terminal is spelt in a sentence like any other. -/
theorem not_kinds_respected :
    (¬ ∀ (offers : List Offer) (kind : Kind) (w : String),
        kind.Holds ((ofOffers offers).intern kind w).1)
      ∧ ¬ ∀ (offers : List Offer) (text : String) (label : Label) (σ : Sentence),
        (ofOffers offers).sentence text label = .ok σ → ∀ s ∈ σ.symbols, s.isTerminal = true := by
  constructor
  · intro h
    exact absurd (h [⟨.terminal, "a"⟩] .nonTerminal "a") (by unfold Kind.Holds; decide +kernel)
  · intro h
    have hspelt := h [⟨.nonTerminal, "S"⟩] "S" .positive ⟨[1], .positive⟩ (by decide +kernel)
    exact absurd (hspelt 1 List.mem_cons_self) (by decide)

end GrammarInduction.Vocabulary
