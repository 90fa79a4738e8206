import Treewalk.Proofs.Grammar.Program

/-!
# How far a rule reads

A rule passes, and then leaves a token it has looked at but not used up, or
it halts at a token, and then its first complaint of consequence is about
that token (`Fate`). Which of the two happens is settled by the kinds of the
tokens up to and with that token: the tokens themselves and whatever stands
behind do not matter (`Reading.Always`).

A verdict on a list (`Verdict`) says which of the two it is, and what the
grammar says about the tokens used up: those of a rule that passes are
derived, those in front of the token where it halts are the beginning of
something derived. Verdicts on the parts of a rule are put together to a
verdict on the rule (`Verdict.andThen` and the lemmas behind it).
-/

namespace Treewalk

open Treewalk.Derivation

/-! ## The first complaint of consequence -/

instance (c : Complaint) : Decidable c.Fatal :=
  inferInstanceAs (Decidable (c.reason ≠ .assignmentTarget))

/-- The first complaint that stopped a rule. -/
def firstFatal? (notes : List Complaint) : Option Complaint :=
  notes.find? fun c => decide c.Fatal

theorem firstFatal?_eq_none_iff {notes : List Complaint} :
    firstFatal? notes = none ↔ ∀ c ∈ notes, ¬ c.Fatal := by
  simp [firstFatal?]

theorem firstFatal?_append_of_none {before : List Complaint} (h : firstFatal? before = none)
    (notes : List Complaint) : firstFatal? (before ++ notes) = firstFatal? notes := by
  rw [firstFatal?, List.find?_append]
  change (firstFatal? before).or _ = _
  rw [h]
  rfl

theorem firstFatal?_append_of_some {before : List Complaint} {why : Complaint}
    (h : firstFatal? before = some why) (notes : List Complaint) :
    firstFatal? (before ++ notes) = some why := by
  rw [firstFatal?, List.find?_append]
  change (firstFatal? before).or _ = _
  rw [h]
  rfl

theorem firstFatal?_singleton {why : Complaint} (h : why.Fatal) :
    firstFatal? [why] = some why := by
  simp [firstFatal?, h]

/-! ## What becomes of a rule -/

/-- What becomes of a rule at the front of a token list. -/
inductive Fate where
  /-- No complaint stopped a rule, and this is left. -/
  | passes (rest : List Token)
  /-- The first complaint that stopped a rule. -/
  | halts (why : Complaint)

namespace Step

variable {ts rest mid : List Token} {α β : Type}

/-- All complaints of a step, with the one it failed with. -/
def complaints : Step ts α → List Complaint
  | .done _ _ _ notes => notes
  | .failed why _ _ notes => notes ++ [why]
  | .overrun notes => notes

/-- The step meets with a fate. -/
def Meets (step : Step ts α) : Fate → Prop
  | .passes rest => ∃ value notes, step.Yields value rest notes ∧ firstFatal? notes = none
  | .halts why => firstFatal? step.complaints = some why

@[simp] theorem meets_within {left : Left ts rest} {step : Step rest α} {fate : Fate} :
    (step.within left).Meets fate ↔ step.Meets fate := by
  cases fate with
  | passes => simp only [Meets, yields_within]
  | halts => cases step <;> exact Iff.rfl

@[simp] theorem meets_map {step : Step ts α} {f : α → β} {fate : Fate} :
    (step.map f).Meets fate ↔ step.Meets fate := by
  cases fate with
  | passes later =>
    simp only [Meets, yields_map]
    constructor
    · rintro ⟨_, notes, ⟨value, h, _⟩, hNotes⟩
      exact ⟨value, notes, h, hNotes⟩
    · rintro ⟨value, notes, h, hNotes⟩
      exact ⟨f value, notes, ⟨value, h, rfl⟩, hNotes⟩
  | halts => cases step <;> exact Iff.rfl

theorem complaints_noting (step : Step ts α) (before : List Complaint) :
    (step.noting before).complaints = before ++ step.complaints := by
  cases step with
  | done | overrun => rfl
  | failed why later kept notes => exact List.append_assoc ..

/-- Harmless notes in front change nothing. -/
theorem Meets.noting {step : Step ts α} {fate : Fate} (h : step.Meets fate)
    {before : List Complaint} (hBefore : firstFatal? before = none) :
    (step.noting before).Meets fate := by
  cases fate with
  | passes later =>
    obtain ⟨value, notes, hYields, hNotes⟩ := h
    refine ⟨value, before ++ notes, yields_noting.mpr ⟨notes, hYields, rfl⟩, ?_⟩
    rw [firstFatal?_append_of_none hBefore, hNotes]
  | halts why =>
    rw [Meets, complaints_noting, firstFatal?_append_of_none hBefore]
    exact h

/-- A complaint of consequence in front is the first one. -/
theorem meets_noting_halts {before : List Complaint} {why : Complaint}
    (h : firstFatal? before = some why) (step : Step ts α) :
    (step.noting before).Meets (.halts why) := by
  rw [Meets, complaints_noting]
  exact firstFatal?_append_of_some h _

/-- What halts a step halts whatever goes on from it. -/
theorem Meets.andThen_halts {step : Step ts α} {why : Complaint} (h : step.Meets (.halts why))
    (next : (value : α) → (rest : List Token) → Left ts rest → Step ts β) :
    (step.andThen next).Meets (.halts why) := by
  cases step with
  | done value later left notes => exact meets_noting_halts h _
  | failed | overrun => exact h

/-- Behind a step that passes the next one decides. -/
theorem Meets.andThen {step : Step ts α} (h : step.Meets (.passes mid)) {fate : Fate}
    {next : (value : α) → (rest : List Token) → Left ts rest → Step ts β}
    (hNext : ∀ value left, (next value mid left).Meets fate) :
    (step.andThen next).Meets fate := by
  obtain ⟨value, notes, ⟨left, rfl⟩, hNotes⟩ := h
  exact (hNext value left).noting hNotes

end Step

/-! ## Readings -/

/-- Which fates a rule may meet with on which lists. -/
def Reading : Type :=
  List Token → Fate → Prop

namespace Reading

/-- What a rule meets with. -/
def of {α : Type} (rule : (ts : List Token) → Step ts α) : Reading :=
  fun ts fate => (rule ts).Meets fate

/-- What all the rules of a family meet with. -/
def all {ι : Type} (family : ι → Reading) : Reading :=
  fun ts fate => ∀ i, family i ts fate

/-- One rule and then another. -/
def andThen (first second : Reading) : Reading :=
  fun ts fate => (∃ why, fate = .halts why ∧ first ts fate) ∨
    ∃ mid, first ts (.passes mid) ∧ second mid fate

/-- A rule behind a token of the given kinds, and nothing in front of any
other token. -/
def optional (marks : List Kind) (inner : Reading) : Reading :=
  fun ts fate => ∃ t more, ts = t :: more ∧
    (t.kind ∈ marks ∧ inner more fate ∨ t.kind ∉ marks ∧ fate = .passes ts)

/-- What follows an option follows the rule behind its mark, or stands in
its place. -/
theorem optional_andThen {marks : List Kind} {inner second : Reading} {ts : List Token}
    {fate : Fate} (h : ((optional marks inner).andThen second) ts fate) :
    ∃ t more, ts = t :: more ∧
      (t.kind ∈ marks ∧ (inner.andThen second) more fate ∨ t.kind ∉ marks ∧ second ts fate) := by
  rcases h with ⟨why, rfl, t, more, rfl, ⟨ht, h⟩ | ⟨_, h⟩⟩ | ⟨mid, ⟨t, more, rfl, h⟩, hNext⟩
  · exact ⟨t, more, rfl, .inl ⟨ht, .inl ⟨why, rfl, h⟩⟩⟩
  · cases h
  · refine ⟨t, more, rfl, ?_⟩
    rcases h with ⟨ht, h⟩ | ⟨ht, h⟩
    · exact .inl ⟨ht, .inr ⟨mid, h, hNext⟩⟩
    · cases h
      exact .inr ⟨ht, hNext⟩

/-- Behind tokens of the given kinds and in front of one more, the rule
meets with this fate, whatever the tokens are and whatever follows. -/
def Always (reading : Reading) (used : List Kind) (next : Kind)
    (fate : Token → List Token → Fate) : Prop :=
  ∀ us t rest, kinds us = used → t.kind = next → reading (us ++ t :: rest) (fate t rest)

theorem Always.imp {reading reading' : Reading} {used : List Kind} {next : Kind}
    {fate : Token → List Token → Fate} (h : reading.Always used next fate)
    (hReading : ∀ ts fate, (kinds ts).head? = (used ++ [next]).head? → reading ts fate →
      reading' ts fate) : reading'.Always used next fate := by
  intro us t rest hUs ht
  refine hReading _ _ ?_ (h us t rest hUs ht)
  cases us with
  | nil => simp [← hUs, ht]
  | cons => simp [← hUs]

/-- A rule that passes in front of a token, and behind it a rule that begins
with that token. -/
theorem Always.andThen {first second : Reading} {used used' : List Kind} {next next' : Kind}
    {fate : Token → List Token → Fate}
    (h : first.Always used next fun t rest => .passes (t :: rest))
    (h' : second.Always used' next' fate) (hNext : (used' ++ [next']).head? = some next) :
    (first.andThen second).Always (used ++ used') next' fate := by
  intro both t rest hBoth ht
  obtain ⟨us, vs, rfl, hUs, hVs⟩ := List.map_eq_append_iff.mp hBoth
  have hSecond := h' vs t rest hVs ht
  rw [List.append_assoc]
  -- the token in front of which the first rule passes is the next one if the second rule
  -- uses up nothing
  cases vs with
  | nil =>
    rw [← hVs] at hNext
    exact .inr ⟨_, h us t rest hUs (ht.trans (Option.some.inj hNext)), hSecond⟩
  | cons v vs =>
    rw [← hVs] at hNext
    exact .inr ⟨_, h us v _ hUs (Option.some.inj hNext), hSecond⟩

end Reading

/-! ## Derived kinds -/

namespace Ebnf

/-- Some kinds that are derived begin with these. -/
def Viable (e : Ebnf) (ks : List Kind) : Prop :=
  ∃ more, Derives e (ks ++ more)

theorem derives_seq_iff {a b : Ebnf} {w : List Kind} :
    Derives (a * b) w ↔ ∃ u v, Derives a u ∧ Derives b v ∧ w = u ++ v := by
  constructor
  · intro h
    cases h with
    | seq first second => exact ⟨_, _, first, second, rfl⟩
  · rintro ⟨u, v, first, second, hw⟩
    exact hw ▸ .seq first second

/-- Sequences may be grouped either way. -/
theorem Derives.assoc {a b c : Ebnf} {w : List Kind} (h : Derives (a * (b * c)) w) :
    Derives (a * b * c) w := by
  obtain ⟨u, v, hFirst, hRest, rfl⟩ := derives_seq_iff.mp h
  obtain ⟨v, w, hSecond, hThird, rfl⟩ := derives_seq_iff.mp hRest
  rw [← List.append_assoc]
  exact .seq (.seq hFirst hSecond) hThird

theorem Derives.first {a a' b : Ebnf} {w : List Kind} (h : Derives (a * b) w)
    (ha : ∀ w, Derives a w → Derives a' w) : Derives (a' * b) w := by
  obtain ⟨u, v, hFirst, hRest, rfl⟩ := derives_seq_iff.mp h
  exact .seq (ha u hFirst) hRest

/-- One more in front of a repetition. -/
theorem Derives.many_cons {a : Ebnf} {w : List Kind} (h : Derives (a * .many a) w) :
    Derives (.many a) w := by
  obtain ⟨u, v, hFirst, hRest, rfl⟩ := derives_seq_iff.mp h
  exact .more hFirst hRest

theorem Viable.imp {e e' : Ebnf} {ks : List Kind} (h : Viable e ks)
    (he : ∀ w, Derives e w → Derives e' w) : Viable e' ks := by
  obtain ⟨more, h⟩ := h
  exact ⟨more, he _ h⟩

/-- The beginning of a first part is the beginning of a sequence, as long as
the second part derives anything. -/
theorem Viable.seq_left {a b : Ebnf} {ks : List Kind} (h : Viable a ks) (hb : Viable b []) :
    Viable (a * b) ks := by
  obtain ⟨more, h⟩ := h
  obtain ⟨w, hb⟩ := hb
  refine ⟨more ++ w, ?_⟩
  rw [← List.append_assoc]
  exact .seq h hb

theorem Viable.seq_right {a b : Ebnf} {ks ks' : List Kind} (ha : Derives a ks)
    (h : Viable b ks') : Viable (a * b) (ks ++ ks') := by
  obtain ⟨more, h⟩ := h
  refine ⟨more, ?_⟩
  rw [List.append_assoc]
  exact .seq ha h

end Ebnf

/-! ## Verdicts -/

open Ebnf

/-- What the kinds of a list decide about a rule, and what the grammar says
to it. -/
inductive Verdict (reading : Reading) (e : Ebnf) (ts : List Token) : Prop
  /-- The rule passes and has used up what is derived. -/
  | passes (used : List Token) (next : Token) (rest : List Token)
      (split : ts = used ++ next :: rest) (derives : Derives e (kinds used))
      (always : reading.Always (kinds used) next.kind fun t rest => .passes (t :: rest))
  /-- The rule halts at a token behind the beginning of what is derived. -/
  | halts (used : List Token) (t : Token) (rest : List Token) (reason : Reason)
      (split : ts = used ++ t :: rest) (viable : Viable e (kinds used))
      (always : reading.Always (kinds used) t.kind fun t _ => .halts ⟨t, reason⟩)

/-- The kind a list begins with. -/
theorem head?_kinds_split {ts used rest : List Token} {t : Token} (h : ts = used ++ t :: rest) :
    (kinds ts).head? = (kinds used ++ [t.kind]).head? := by
  subst h
  cases used <;> simp

namespace Verdict

variable {reading reading' first second inner : Reading} {e e' : Ebnf} {t : Token}
  {ts more : List Token}

/-- A verdict on one rule is a verdict on another that does the same on
lists which begin with this kind, and derives what is derived. -/
theorem imp (h : Verdict reading e ts)
    (hReading : ∀ us fate, (kinds us).head? = (kinds ts).head? → reading us fate →
      reading' us fate) (he : ∀ w, Derives e w → Derives e' w) : Verdict reading' e' ts := by
  cases h with
  | passes used next rest split derives always =>
    rw [head?_kinds_split split] at hReading
    exact .passes used next rest split (he _ derives) (always.imp hReading)
  | halts used t rest reason split viable always =>
    rw [head?_kinds_split split] at hReading
    exact .halts used t rest reason split (viable.imp he) (always.imp hReading)

/-- The form of `imp` for a list that is not empty. -/
theorem of_head (h : Verdict reading e (t :: more))
    (hReading : ∀ u us fate, u.kind = t.kind → reading (u :: us) fate → reading' (u :: us) fate)
    (he : ∀ w, Derives e w → Derives e' w) : Verdict reading' e' (t :: more) := by
  refine h.imp (fun us fate hHead hus => ?_) he
  cases us with
  | nil => cases hHead
  | cons u us => exact hReading u us fate (Option.some.inj hHead) hus

theorem mono (h : Verdict reading e ts)
    (hReading : ∀ us fate, reading us fate → reading' us fate)
    (he : ∀ w, Derives e w → Derives e' w) : Verdict reading' e' ts :=
  h.imp (fun us fate _ => hReading us fate) he

/-- What is derived may be taken as part of something wider. -/
theorem weaken (h : Verdict reading e ts) (he : ∀ w, Derives e w → Derives e' w) :
    Verdict reading e' ts :=
  h.mono (fun _ _ => id) he

/-- One rule and then another. -/
theorem andThen (h : Verdict first e ts) (hProductive : Viable e' [])
    (h' : ∀ mid, first ts (.passes mid) → Verdict second e' mid) :
    Verdict (first.andThen second) (e * e') ts := by
  cases h with
  | halts used t rest reason split viable always =>
    refine .halts used t rest reason split (viable.seq_left hProductive) ?_
    intro us u later hUs hu
    exact .inl ⟨_, rfl, always us u later hUs hu⟩
  | passes used next rest split derives always =>
    -- the second rule begins with the token that the first one looked at, so the kinds
    -- that decide about it are those the first one left open
    have hMid : first ts (.passes (next :: rest)) := split ▸ always used next rest rfl rfl
    cases h' _ hMid with
    | passes used' next' rest' split' derives' always' =>
      refine .passes (used ++ used') next' rest' ?_ ?_ ?_
      · rw [split, split', List.append_assoc]
      · rw [kinds_append]
        exact .seq derives derives'
      · rw [kinds_append]
        exact always.andThen always' (head?_kinds_split split').symm
    | halts used' t rest' reason split' viable' always' =>
      refine .halts (used ++ used') t rest' reason ?_ ?_ ?_
      · rw [split, split', List.append_assoc]
      · rw [kinds_append]
        exact .seq_right derives viable'
      · rw [kinds_append]
        exact always.andThen always' (head?_kinds_split split').symm

/-- A rule that uses up one token. -/
theorem single {marks : List Kind} (ht : t.kind ∈ marks) (hMore : more ≠ [])
    (hReading : ∀ u us, u.kind = t.kind → reading (u :: us) (.passes us)) :
    Verdict reading (.token marks) (t :: more) := by
  obtain ⟨next, rest, rfl⟩ := List.exists_cons_of_ne_nil hMore
  refine .passes [t] next rest rfl (.token ht) ?_
  intro us u later hUs _
  obtain ⟨v, rfl, hv⟩ := List.map_eq_singleton_iff.mp hUs
  exact hReading v _ hv

/-- A rule that uses up nothing. -/
theorem nothing (hDerives : Derives e [])
    (hReading : ∀ u us, u.kind = t.kind → reading (u :: us) (.passes (u :: us))) :
    Verdict reading e (t :: more) := by
  refine .passes [] t more rfl hDerives ?_
  intro us u later hUs hu
  rw [List.map_eq_nil_iff.mp hUs]
  exact hReading u later hu

/-- A rule that halts at the first token. -/
theorem stuck (reason : Reason) (hProductive : Viable e [])
    (hReading : ∀ u us, u.kind = t.kind → reading (u :: us) (.halts ⟨u, reason⟩)) :
    Verdict reading e (t :: more) := by
  refine .halts [] t more reason rfl hProductive ?_
  intro us u later hUs hu
  rw [List.map_eq_nil_iff.mp hUs]
  exact hReading u later hu

/-- A token and then a rule. -/
theorem cons {marks : List Kind} (ht : t.kind ∈ marks) (h : Verdict inner e more)
    (hReading : ∀ u us fate, u.kind = t.kind → inner us fate → reading (u :: us) fate) :
    Verdict reading (.token marks * e) (t :: more) := by
  have hAlways : ∀ (used : List Token) {next : Kind} {fate : Token → List Token → Fate},
      inner.Always (kinds used) next fate → reading.Always (kinds (t :: used)) next fate := by
    intro used next fate hInner us u later hUs hu
    obtain ⟨v, vs, rfl, hv, hVs⟩ := List.map_eq_cons_iff.mp hUs
    exact hReading v _ _ hv (hInner vs u later hVs hu)
  cases h with
  | passes used next rest split derives always =>
    exact .passes (t :: used) next rest (by rw [split, List.cons_append])
      (.seq (.token ht) derives) (hAlways used always)
  | halts used u rest reason split viable always =>
    exact .halts (t :: used) u rest reason (by rw [split, List.cons_append])
      (.seq_right (.token ht) viable) (hAlways used always)

/-- A mark and then a rule, taken as part of something wider. -/
theorem behind {kind : Kind} (ht : t.kind = kind) (h : Verdict inner e more)
    (hReading : ∀ u us fate, u.kind = kind → inner us fate → reading (u :: us) fate)
    (he : ∀ w, Derives (mark kind * e) w → Derives e' w) : Verdict reading e' (t :: more) := by
  have hBoth : Verdict reading (mark kind * e) (t :: more) :=
    cons (List.mem_singleton.mpr ht) h fun u us fate hu => hReading u us fate (hu.trans ht)
  exact hBoth.weaken he

/-- A mark alone, taken as part of something wider. -/
theorem closing {kind : Kind} (ht : t.kind = kind) (hMore : more ≠ [])
    (hReading : ∀ u us, u.kind = kind → reading (u :: us) (.passes us))
    (he : ∀ w, Derives (mark kind) w → Derives e w) : Verdict reading e (t :: more) := by
  have hMark : Verdict reading (mark kind) (t :: more) :=
    single (List.mem_singleton.mpr ht) hMore fun u us hu => hReading u us (hu.trans ht)
  exact hMark.weaken he

/-- A rule behind a mark, or nothing. -/
theorem optional {marks : List Kind} (h : t.kind ∈ marks → Verdict inner e more) :
    Verdict (.optional marks inner) (.optional (.token marks * e)) (t :: more) := by
  by_cases ht : t.kind ∈ marks
  · refine (cons ht (h ht) fun u us fate hu hus => ?_).weaken fun _ => .present
    exact ⟨u, us, rfl, .inl ⟨hu ▸ ht, hus⟩⟩
  · refine nothing .absent fun u us hu => ?_
    exact ⟨u, us, rfl, .inr ⟨hu ▸ ht, rfl⟩⟩

end Verdict

end Treewalk
