import Wandio.Utils.JsonText
import Mathlib.Data.List.Forall2
import Mathlib.Data.List.Nodup

/-!
# What a JSON text can hold

A text between two quotation marks is read as the string it is only if each of its characters
stands for itself. What the machine has read at some place of a text is at that place of the
document, whatever comes behind it.
-/

namespace Wandio.JsonText

/-! ## What a literal holds -/

/-- The string of a literal, and the text behind it. -/
def Literal.read (l : Literal) : List Char → Option (List Char × List Char)
  | [] => none
  | c :: text =>
    (l.step c).bind fun
      | .inl l => l.read text
      | .inr chars => some (chars, text)

section Literals

variable {chars w w' a t text rest s : List Char} {c : Char} {l m : Literal}

theorem read_next (h : l.step c = some (.inl m)) : l.read (c :: text) = m.read text := by
  rw [Literal.read, h]
  rfl

theorem read_closed (h : l.step c = some (.inr s)) : l.read (c :: text) = some (s, text) := by
  rw [Literal.read, h]
  rfl

theorem Plain.append (h : Plain w) (hquote : c ≠ quotationMark) (hslash : c ≠ reverseSolidus)
    (hlow : ¬ c.toNat < 0x20) : Plain (w ++ [c]) := by
  intro d hd
  rw [List.mem_append, List.mem_singleton] at hd
  cases hd with
  | inl hd => exact h d hd
  | inr hd =>
    rw [hd]
    exact ⟨hquote, hslash, hlow⟩

theorem step_plain (hquote : c ≠ quotationMark) (hslash : c ≠ reverseSolidus)
    (hlow : ¬ c.toNat < 0x20) :
    (⟨chars, .none⟩ : Literal).step c = some (.inl ⟨chars ++ [c], .none⟩) := by
  unfold Literal.step
  simp only
  rw [if_neg hquote, if_neg hslash, if_neg hlow]

theorem read_plain (h : Plain w) :
    (⟨chars, .none⟩ : Literal).read (w ++ text) = (⟨chars ++ w, .none⟩ : Literal).read text := by
  induction w generalizing chars with
  | nil => rw [List.nil_append, List.append_nil]
  | cons c w ih =>
    obtain ⟨hquote, hslash, hlow⟩ := h c (List.mem_cons_self ..)
    rw [List.cons_append, read_next (step_plain hquote hslash hlow),
      ih fun d hd => h d (List.mem_cons_of_mem _ hd), List.append_assoc]
    rfl

/-- The characters a code unit adds. -/
theorem unit_adds {high : Option ℕ} {value : ℕ} (h : Literal.unit chars high value = some m) :
    m.chars.length ≤ chars.length + 1 ∧ m.escape ≠ .begun := by
  unfold Literal.unit at h
  split at h <;> split at h
  · cases h
    exact ⟨Nat.le_of_eq List.length_append, nofun⟩
  · cases h
  · cases h
    exact ⟨Nat.le_succ _, nofun⟩
  · split at h
    · cases h
    · cases h
      exact ⟨Nat.le_of_eq List.length_append, nofun⟩

/-- The characters a step adds. -/
theorem step_adds (h : l.step c = some (.inl m)) :
    m.chars.length ≤ l.chars.length + 1 ∧ (m.escape = .begun → c = reverseSolidus) := by
  unfold Literal.step at h
  split at h
  · split at h
    · cases h
    split at h
    · rename_i hslash
      cases h
      exact ⟨Nat.le_succ _, fun _ => hslash⟩
    split at h <;> cases h
    exact ⟨Nat.le_of_eq List.length_append, nofun⟩
  · split at h
    · cases h
      exact ⟨Nat.le_succ _, nofun⟩
    · obtain ⟨d, _, hd⟩ := Option.map_eq_some_iff.mp h
      cases hd
      exact ⟨Nat.le_of_eq List.length_append, nofun⟩
  · obtain ⟨d, _, hd⟩ := Option.bind_eq_some_iff.mp h
    split at hd
    · obtain ⟨m', hunit, hm⟩ := Option.map_eq_some_iff.mp hd
      cases hm
      have hadds := unit_adds hunit
      exact ⟨hadds.1, fun hbegun => absurd hbegun hadds.2⟩
    · cases hd
      exact ⟨Nat.le_succ _, nofun⟩
  · split at h <;> cases h
    exact ⟨Nat.le_succ _, nofun⟩
  · split at h <;> cases h
    exact ⟨Nat.le_succ _, nofun⟩

/-- Only a quotation mark ends a literal. -/
theorem step_closes (h : l.step c = some (.inr s)) :
    l.escape = .none ∧ c = quotationMark ∧ s = l.chars := by
  unfold Literal.step at h
  split at h
  · rename_i hescape
    split at h
    · rename_i hquote
      cases h
      exact ⟨hescape, hquote, rfl⟩
    split at h
    · cases h
    split at h <;> cases h
  · split at h
    · cases h
    · obtain ⟨d, _, hd⟩ := Option.map_eq_some_iff.mp h
      cases hd
  · obtain ⟨d, _, hd⟩ := Option.bind_eq_some_iff.mp h
    split at hd
    · obtain ⟨m', _, hm⟩ := Option.map_eq_some_iff.mp hd
      cases hm
    · cases hd
  · split at h <;> cases h
  · split at h <;> cases h

/-- The reading of `w` has come to `l`: nothing has been escaped, or fewer characters have been
read of the string than of the text. -/
structure Progress (w : List Char) (l : Literal) : Prop where
  length : Plain w ∧ l = ⟨w, .none⟩ ∨ l.chars.length < w.length
  begun : l.escape = .begun → w.getLast? = some reverseSolidus

theorem Progress.start : Progress [] .start := ⟨.inl ⟨nofun, rfl⟩, nofun⟩

theorem Progress.length_le (h : Progress w l) : l.chars.length ≤ w.length := by
  cases h.length with
  | inl h => exact h.2 ▸ Nat.le_refl w.length
  | inr h => exact Nat.le_of_lt h

theorem Progress.step (h : Progress w l) (hstep : l.step c = some (.inl m)) :
    Progress (w ++ [c]) m := by
  have hadds := step_adds hstep
  refine ⟨?_, fun hbegun => by rw [hadds.2 hbegun, List.getLast?_concat]⟩
  rw [List.length_append, List.length_singleton]
  cases h.length with
  | inl hplain =>
    rw [hplain.2] at hstep
    unfold Literal.step at hstep
    simp only at hstep
    split at hstep
    · cases hstep
    split at hstep
    · cases hstep
      exact .inr (Nat.lt_succ_self _)
    split at hstep
    · cases hstep
    cases hstep
    exact .inl ⟨hplain.1.append ‹_› ‹_› ‹_›, rfl⟩
  | inr hlt => exact .inr (Nat.lt_of_le_of_lt hadds.1 (Nat.succ_lt_succ hlt))

/-- A literal ends inside `w'`, or is still being read behind it. -/
theorem Progress.read (h : Progress w l) (hread : l.read (w' ++ text) = some (s, rest)) :
    s.length < (w ++ w').length ∨
      ∃ m : Literal, Progress (w ++ w') m ∧ m.read text = some (s, rest) := by
  induction w' generalizing w l with
  | nil =>
    rw [List.append_nil]
    exact .inr ⟨l, h, hread⟩
  | cons c w' ih =>
    rw [List.cons_append] at hread
    cases hstep : l.step c with
    | none =>
      rw [Literal.read, hstep] at hread
      cases hread
    | some r =>
      cases r with
      | inl m =>
        rw [read_next hstep] at hread
        have hih := ih (h.step hstep) hread
        rwa [List.append_assoc] at hih
      | inr chars =>
        rw [read_closed hstep] at hread
        cases hread
        rw [(step_closes hstep).2.2, List.length_append, List.length_cons]
        exact .inl (Nat.lt_of_le_of_lt h.length_le (by omega))

/-- A quotation mark, and up to the next one characters that stand for themselves. -/
def Closes (t : List Char) : Prop :=
  ∃ a, Plain a ∧ (t = quotationMark :: a ∨ ∃ t', t = quotationMark :: (a ++ quotationMark :: t'))

/-- A quotation mark behind a reverse solidus is read as part of the string, and the last
character of the string is behind the reverse solidus then. -/
theorem ne_of_begun (hw : w.getLast? = some reverseSolidus) (ht : Closes t)
    (hread : (⟨chars, .begun⟩ : Literal).read t = some (s, rest)) : s ≠ w := by
  have hbegun : ∀ u, (⟨chars, .begun⟩ : Literal).read (quotationMark :: u) =
      (⟨chars ++ [quotationMark], .none⟩ : Literal).read u := fun _ => read_next rfl
  obtain ⟨a, ha, ht⟩ := ht
  have hs : s = chars ++ (quotationMark :: a) := by
    cases ht with
    | inl ht =>
      rw [ht, hbegun, ← List.append_nil a, read_plain ha] at hread
      cases hread
    | inr ht =>
      obtain ⟨t', rfl⟩ := ht
      rw [hbegun, read_plain ha, read_closed (s := chars ++ [quotationMark] ++ a) rfl] at hread
      cases hread
      rw [List.append_assoc, List.singleton_append]
  intro hsw
  have hmem : reverseSolidus ∈ quotationMark :: a := by
    rw [← hsw, hs, List.getLast?_append_of_ne_nil _ (List.cons_ne_nil _ _)] at hw
    exact List.mem_of_getLast? hw
  cases hmem with
  | tail _ hmem => exact (ha _ hmem).2.1 rfl

theorem Closes.eq_cons (ht : Closes t) : ∃ u, t = quotationMark :: u := by
  obtain ⟨a, _, ht⟩ := ht
  cases ht with
  | inl ht => exact ⟨_, ht⟩
  | inr ht =>
    obtain ⟨t', ht⟩ := ht
    exact ⟨_, ht⟩

/-- What is between two quotation marks is read as the string it is only if each of its characters
stands for itself. -/
theorem ne_of_not_plain (hw : ¬ Plain w) (ht : Closes t)
    (hread : Literal.start.read (w ++ t) = some (s, rest)) : s ≠ w := by
  have hshort : s.length < w.length → s ≠ w := fun hlt hsw => by
    rw [hsw] at hlt
    exact Nat.lt_irrefl _ hlt
  cases Progress.start.read hread with
  | inl hlt => exact hshort hlt
  | inr hm =>
    obtain ⟨m, hprogress, hread⟩ := hm
    rw [List.nil_append] at hprogress
    have hlt : m.chars.length < w.length := hprogress.length.resolve_left fun h => hw h.1
    obtain ⟨chars, escape⟩ := m
    cases escape with
    | begun => exact ne_of_begun (hprogress.begun rfl) ht hread
    | none =>
      obtain ⟨u, rfl⟩ := ht.eq_cons
      rw [read_closed (s := chars) rfl] at hread
      cases hread
      exact hshort hlt
    | digits high left value =>
      obtain ⟨u, rfl⟩ := ht.eq_cons
      cases hread
    | high unit =>
      obtain ⟨u, rfl⟩ := ht.eq_cons
      cases hread
    | highBegun unit =>
      obtain ⟨u, rfl⟩ := ht.eq_cons
      cases hread

example : Literal.start.read "a\\\"b\", c".toList = some ("a\"b".toList, ", c".toList) := by rfl

end Literals

/-! ## What is read inside of a document -/

/-- With the value `x` in the innermost of the arrays and objects, `v` is the value of the
document. -/
def Within : List Frame → Value → Value → Prop
  | [], x, v => x = v
  | .array values :: frames, x, v => ∃ more, Within frames (.array (values ++ x :: more)) v
  | .object members (some name) :: frames, x, v =>
    ∃ more, Within frames (.object (members ++ (name, x) :: more)) v
  | .object _ none :: _, _, _ => False

/-- `v` is a value of the document that begins as it has been read. -/
def Begins : List Frame → Value → Prop
  | [], _ => True
  | .array values :: frames, v => ∃ more, Within frames (.array (values ++ more)) v
  | .object members none :: frames, v => ∃ more, Within frames (.object (members ++ more)) v
  | .object members (some name) :: frames, v =>
    ∃ x more, Within frames (.object (members ++ (name, x) :: more)) v

/-- The machine can come to the end of the document with `v`. -/
inductive Yields : State → Value → Prop
  | done (v : Value) : Yields ⟨[], .done v⟩ v
  | reading (frames : List Frame) (mode : Mode) (v : Value) (hmode : ∀ x, mode ≠ .done x)
    (hbegins : Begins frames v) : Yields ⟨frames, mode⟩ v

section Frames

variable {frames : List Frame} {st st' : State} {text rest w : List Char} {c : Char}
  {x v : Value} {l m : Literal} {mode : Mode}

theorem Within.begins (h : Within frames x v) : Begins frames v := by
  cases frames with
  | nil => trivial
  | cons frame frames =>
    cases frame with
    | array values =>
      obtain ⟨more, h⟩ := h
      exact ⟨x :: more, h⟩
    | object members name =>
      cases name with
      | none => exact h.elim
      | some name =>
        obtain ⟨more, h⟩ := h
        exact ⟨x, more, h⟩

theorem Yields.begins (h : Yields ⟨frames, mode⟩ v) : Begins frames v := by
  cases h with
  | done => trivial
  | reading _ _ _ _ hbegins => exact hbegins

/-- The value that has been read is in the innermost array or object. -/
theorem within_complete (hstep : complete x frames = some st') (h : Yields st' v) :
    Within frames x v := by
  unfold complete at hstep
  split at hstep <;> cases hstep
  · cases h with
    | done => rfl
    | reading _ _ _ hmode _ => exact absurd rfl (hmode x)
  · obtain ⟨more, h⟩ := h.begins
    rw [List.append_assoc] at h
    exact ⟨more, h⟩
  · obtain ⟨more, h⟩ := h.begins
    rw [List.append_assoc] at h
    exact ⟨more, h⟩

theorem begins_named {s : List Char} (hstep : named s frames = some st') (h : Yields st' v) :
    Begins frames v := by
  unfold named at hstep
  split at hstep <;> cases hstep
  obtain ⟨x, more, h⟩ := h.begins
  exact ⟨(s, x) :: more, h⟩

theorem begins_endArray (hstep : endArray frames = some st') (h : Yields st' v) :
    Begins frames v := by
  unfold endArray at hstep
  split at hstep
  · refine ⟨[], ?_⟩
    rw [List.append_nil]
    exact within_complete hstep h
  · cases hstep

theorem begins_endObject (hstep : endObject frames = some st') (h : Yields st' v) :
    Begins frames v := by
  unfold endObject at hstep
  split at hstep
  · refine ⟨[], ?_⟩
    rw [List.append_nil]
    exact within_complete hstep h
  · cases hstep

theorem begins_begin (hstep : begin frames c = some st') (h : Yields st' v) :
    Begins frames v := by
  unfold begin at hstep
  split at hstep
  · cases hstep
    obtain ⟨more, h⟩ := h.begins
    exact h.begins
  split at hstep
  · cases hstep
    obtain ⟨more, h⟩ := h.begins
    exact h.begins
  split at hstep
  · cases hstep
    exact h.begins
  split at hstep
  · cases hstep
    exact h.begins
  · cases hstep

theorem begins_comma (hstep : comma frames = some st') (h : Yields st' v) : Begins frames v := by
  unfold comma at hstep
  split at hstep <;> cases hstep <;> exact h.begins

/-- A character between literals and words. -/
theorem begins_between (hstep : State.between ⟨frames, mode⟩ c = some st') (h : Yields st' v) :
    Begins frames v := by
  unfold State.between at hstep
  split at hstep
  · cases hstep
    exact h.begins
  split at hstep
  · exact begins_begin hstep h
  · split at hstep
    · exact begins_endArray hstep h
    · exact begins_begin hstep h
  · split at hstep
    · exact begins_endObject hstep h
    · split at hstep <;> cases hstep
      exact h.begins
  · split at hstep <;> cases hstep
    exact h.begins
  · split at hstep <;> cases hstep
    exact h.begins
  · split at hstep
    · exact begins_comma hstep h
    split at hstep
    · exact begins_endArray hstep h
    split at hstep
    · exact begins_endObject hstep h
    · cases hstep
  · cases hstep

/-- Behind the document there is nothing but space. -/
theorem between_done (hstep : State.between ⟨frames, .done x⟩ c = some st') :
    st' = ⟨frames, .done x⟩ := by
  unfold State.between at hstep
  split at hstep
  · exact (Option.some.inj hstep).symm
  · cases hstep

theorem yields_between (hstep : st.between c = some st') (h : Yields st' v) : Yields st v := by
  obtain ⟨frames, mode⟩ := st
  by_cases hmode : ∃ x, mode = .done x
  · obtain ⟨x, rfl⟩ := hmode
    rw [between_done hstep] at h
    exact h
  · have hmode : ∀ x, mode ≠ .done x := fun x hx => hmode ⟨x, hx⟩
    exact .reading frames mode v hmode (begins_between hstep h)

/-- A character inside of a string literal, or its end. -/
theorem begins_literal {isName : Bool}
    (hstep : State.step ⟨frames, .literal isName l⟩ c = some st') (h : Yields st' v) :
    Begins frames v := by
  obtain ⟨r, _, hr⟩ := Option.bind_eq_some_iff.mp hstep
  cases r with
  | inl m =>
    cases hr
    exact h.begins
  | inr chars =>
    cases isName with
    | true => exact begins_named hr h
    | false => exact (within_complete hr h).begins

/-- A character inside of a word, or behind it. -/
theorem begins_word (hstep : State.step ⟨frames, .word w⟩ c = some st') (h : Yields st' v) :
    Begins frames v := by
  unfold State.step at hstep
  simp only at hstep
  split at hstep
  · cases hstep
    exact h.begins
  · obtain ⟨x, _, hx⟩ := Option.bind_eq_some_iff.mp hstep
    obtain ⟨st₁, hcomplete, hbetween⟩ := Option.bind_eq_some_iff.mp hx
    exact (within_complete hcomplete (yields_between hbetween h)).begins

theorem yields_step (hstep : st.step c = some st') (h : Yields st' v) : Yields st v := by
  obtain ⟨frames, mode⟩ := st
  cases mode with
  | literal isName l => exact .reading _ _ _ nofun (begins_literal hstep h)
  | word w => exact .reading _ _ _ nofun (begins_word hstep h)
  | value => exact yields_between hstep h
  | element => exact yields_between hstep h
  | member => exact yields_between hstep h
  | name => exact yields_between hstep h
  | colon => exact yields_between hstep h
  | behind => exact yields_between hstep h
  | done x => exact yields_between hstep h

theorem yields_run (hrun : run st text = some st') (h : Yields st' v) : Yields st v := by
  induction text generalizing st with
  | nil =>
    cases hrun
    exact h
  | cons c text ih =>
    obtain ⟨st₁, hstep, hrun⟩ := Option.bind_eq_some_iff.mp hrun
    exact yields_step hstep (ih hrun)

/-- A run that comes to the end of the document. -/
theorem yields_read (hrun : run st text = some st') (hfinish : st'.finish = some v) :
    Yields st v := by
  apply yields_run hrun
  obtain ⟨frames, mode⟩ := st'
  unfold State.finish at hfinish
  split at hfinish
  · rename_i hframes hmode
    cases hframes
    cases hmode
    cases hfinish
    exact .done v
  · rename_i hframes hmode
    cases hframes
    cases hmode
    exact .reading _ _ _ nofun trivial
  · cases hfinish

/-- A string literal in a document. -/
theorem literal_within (hrun : run ⟨frames, .literal false l⟩ text = some st')
    (hfinish : st'.finish = some v) :
    ∃ s rest, l.read text = some (s, rest) ∧ Within frames (.string s) v := by
  induction text generalizing l with
  | nil =>
    cases hrun
    cases frames <;> cases hfinish
  | cons c text ih =>
    obtain ⟨st₁, hstep, hrun⟩ := Option.bind_eq_some_iff.mp hrun
    obtain ⟨r, hl, hr⟩ := Option.bind_eq_some_iff.mp hstep
    cases r with
    | inl m =>
      cases hr
      rw [read_next hl]
      exact ih hrun
    | inr chars => exact ⟨chars, text, read_closed hl,
        within_complete hr (yields_read hrun hfinish)⟩

/-- A literal that is the string it holds. -/
theorem run_plain {isName : Bool} {chars : List Char} (h : Plain w) :
    run ⟨frames, .literal isName ⟨chars, .none⟩⟩ (w ++ text) =
      run ⟨frames, .literal isName ⟨chars ++ w, .none⟩⟩ text := by
  induction w generalizing chars with
  | nil => rw [List.nil_append, List.append_nil]
  | cons c w ih =>
    obtain ⟨hquote, hslash, hlow⟩ := h c (List.mem_cons_self ..)
    have hstep : State.step ⟨frames, .literal isName ⟨chars, .none⟩⟩ c =
        some ⟨frames, .literal isName ⟨chars ++ [c], .none⟩⟩ := by
      unfold State.step
      simp only
      rw [step_plain hquote hslash hlow]
      rfl
    rw [List.cons_append, run, hstep, Option.bind_some,
      ih fun d hd => h d (List.mem_cons_of_mem _ hd), List.append_assoc]
    rfl

/-- A string and what is behind it, if each of its characters stands for itself. -/
theorem run_string (hw : Plain w)
    (hrest : run ⟨frames, .literal false ⟨w, .none⟩⟩ rest = some st) :
    run ⟨frames, .literal false .start⟩ (w ++ (rest ++ text)) = run st text := by
  rw [Literal.start, run_plain hw, List.nil_append, run_append, hrest, Option.bind_some]

end Frames

/-! ## Objects -/

/-- An object whose members are those of `members`, in any order, each with a value as it is
there. -/
def IsObject (members : List (List Char × (Value → Prop))) (v : Value) : Prop :=
  ∃ ms, v = .object ms ∧ (ms.map Prod.fst).Perm (members.map Prod.fst) ∧
    ∀ m ∈ ms, ∀ p ∈ members, m.1 = p.1 → p.2 m.2

/-- If the document is as `P` says, then what is inside the frames is as `Q` says. -/
def Forces (frames : List Frame) (P Q : Value → Prop) : Prop :=
  ∀ x v, Within frames x v → P v → Q x

section Objects

variable {frames : List Frame} {P Q : Value → Prop} {M : List (List Char × (Value → Prop))}
  {members : List (List Char × Value)} {name : List Char}

theorem Forces.document : Forces [] P P := fun _ _ h hP => h ▸ hP

theorem Forces.member (h : Forces frames P (IsObject M)) (hmem : (name, Q) ∈ M) :
    Forces (.object members (some name) :: frames) P Q := by
  intro x v hwithin hP
  obtain ⟨more, hwithin⟩ := hwithin
  obtain ⟨ms, hms, _, hall⟩ := h _ v hwithin hP
  cases hms
  exact hall (name, x) (List.mem_append_right _ (List.mem_cons_self ..)) (name, Q) hmem rfl

theorem exists_mem_of_forall₂ {α β : Type} {R : α → β → Prop} {l : List α} {l' : List β} {a : α}
    (h : List.Forall₂ R l l') (ha : a ∈ l) : ∃ b ∈ l', R a b := by
  induction h with
  | nil => cases ha
  | cons hR _ ih =>
    cases ha with
    | head => exact ⟨_, List.mem_cons_self .., hR⟩
    | tail _ ha =>
      obtain ⟨b, hb, hR'⟩ := ih ha
      exact ⟨b, List.mem_cons_of_mem _ hb, hR'⟩

/-- An object that has the members in the order of `M`. -/
theorem isObject_object {ms : List (List Char × Value)} (hnames : (M.map Prod.fst).Nodup)
    (h : List.Forall₂ (fun m p => m.1 = p.1 ∧ p.2 m.2) ms M) : IsObject M (.object ms) := by
  have heq : ms.map Prod.fst = M.map Prod.fst := by
    induction h with
    | nil => rfl
    | cons hp _ ih =>
      rw [List.map_cons, List.nodup_cons] at hnames
      rw [List.map_cons, List.map_cons, hp.1, ih hnames.2]
  refine ⟨ms, rfl, .of_eq heq, fun m hm p hp hname => ?_⟩
  obtain ⟨q, hq, hname', hvalue⟩ := exists_mem_of_forall₂ h hm
  have hqp : q = p := List.inj_on_of_nodup_map hnames hq hp (hname'.symm.trans hname)
  exact hqp ▸ hvalue

theorem isObject_single {x : Value} (h : P x) : IsObject [(name, P)] (.object [(name, x)]) :=
  isObject_object (List.nodup_singleton _) (.cons ⟨rfl, h⟩ .nil)

/-- Where the document is to hold the string between two quotation marks, each of its characters
stands for itself. -/
theorem Forces.plain {w t : List Char} {v : Value} (h : Forces frames P (· = .string w))
    (ht : Closes t) (hP : P v)
    (hrun : ((run ⟨frames, .literal false .start⟩ (w ++ t)).bind State.finish) = some v) :
    Plain w := by
  obtain ⟨st, hrun, hfinish⟩ := Option.bind_eq_some_iff.mp hrun
  obtain ⟨s, rest, hread, hwithin⟩ := literal_within hrun hfinish
  by_contra hw
  exact ne_of_not_plain hw ht hread (Value.string.inj (h _ v hwithin hP))

end Objects

end Wandio.JsonText
