import CyclicProof.Proofs.Nameless.Roles
import CyclicProof.Proposition.Digest

/-!
# Digests and alignment

A digest can be decoded: what is fed to a hasher for a proposition says where it ends, and two
propositions with the same digest can be walked in parallel.  This holds for both digests, since
each way of recording free names goes with a way of matching them (`Proposition.Records`), and it is
proved for both at once: aligned propositions have equal digests
(`Proposition.digestIn_eq_of_align`), and propositions with equal data are aligned
(`Proposition.exists_align_of_data_eq`).

For the plain digest this means that equality up to bound names, equality of nameless forms and
equality of the hashed data are the same (`Proposition.alphaEquiv_iff_hashed`).  Whatever does not
depend on bound names is a function of the nameless form, in particular the size and the list of
free occurrences.
-/

namespace CyclicProof

/-! ## What is hashed -/

/-- A piece of data that is fed to a hasher. -/
inductive HashDatum where
  /-- A tag. -/
  | byte (value : UInt8)
  /-- A number or a kind. -/
  | word (value : ℕ)
  /-- A name. -/
  | text (value : Name)
deriving DecidableEq, Repr

/-- The number of a connective among the connectives. -/
def ConnectiveKind.number : ConnectiveKind → ℕ
  | conjunction => 0
  | disjunction => 1
  | implication => 2
  | coimplication => 3

/-- The number of a binder among the binders. -/
def BinderKind.number : BinderKind → ℕ
  | quantifier .universal => 0
  | quantifier .existential => 1
  | fixpoint .least => 2
  | fixpoint .greatest => 3

lemma ConnectiveKind.number_injective : Function.Injective ConnectiveKind.number := by
  intro k l h
  cases k <;> cases l <;> first | rfl | cases h

lemma BinderKind.number_injective : Function.Injective BinderKind.number := by
  rintro (⟨_ | _⟩ | ⟨_ | _⟩) (⟨_ | _⟩ | ⟨_ | _⟩) h <;> first | rfl | cases h

namespace DigestMark

/-- What is hashed for a mark. -/
def data : DigestMark → List HashDatum
  | binder kind vars none => [.byte 0, .word kind.number, .word vars, .byte 0]
  | binder kind vars (some args) => [.byte 0, .word kind.number, .word vars, .byte 1, .word args]
  | connective kind count => [.byte 1, .word kind.number, .word count]
  | atomic arity => [.byte 2, .word arity]
  | bound level => [.byte 0, .word level]
  | numbered index => [.byte 1, .word index]
  | named name => [.byte 2, .text name]

/-- Whether the mark stands for a free head. -/
def isFree : DigestMark → Bool
  | numbered _ | named _ => true
  | _ => false

/-- Whether the mark stands for the head of an atom. -/
def isHead : DigestMark → Bool
  | bound _ => true
  | mark => mark.isFree

lemma isHead_of_isFree {m : DigestMark} (hm : m.isFree = true) : m.isHead = true := by
  cases m with
  | bound => rfl
  | _ => exact hm

lemma ne_bound_of_isFree {m : DigestMark} (hm : m.isFree = true) (level : ℕ) :
    m ≠ bound level := by
  rintro rfl
  cases hm

/-- Tags tell heads apart. -/
lemma eq_of_data_append_eq {m m' : DigestMark} {rest rest' : List HashDatum}
    (hm : m.isHead = true) (hm' : m'.isHead = true) (h : m.data ++ rest = m'.data ++ rest') :
    m = m' ∧ rest = rest' := by
  cases m with
  | binder | connective | atomic => cases hm
  | bound | numbered | named =>
    cases m' with
    | binder | connective | atomic => cases hm'
    | bound | numbered | named => simp_all [data]

end DigestMark

/-- What is hashed for a digest. -/
def Digest.data (digest : Digest) : List HashDatum := digest.flatMap DigestMark.data

namespace Digest

lemma data_cons (m : DigestMark) (digest : Digest) : data (m :: digest) = m.data ++ data digest :=
  rfl

lemma data_append (first rest : Digest) : data (first ++ rest) = data first ++ data rest :=
  List.flatMap_append

end Digest

namespace Proposition

/-! ## Recording and matching -/

/-- Match two heads with the same number of arguments. -/
def alignHead {σ : Type} (free : Matcher σ) (left right : Scope) (f g : Name) (nullary : Bool)
    (state : σ) : Option σ :=
  match left.level? f, right.level? g with
  | some i, some j => if i = j then some state else none
  | none, none => free state f g nullary
  | _, _ => none

/-- A way of matching free names goes with a way of recording them: names match exactly when they
are recorded by the same mark.  The invariant relates the state of the walk in parallel to the names
met so far on both sides. -/
structure Records {σ : Type} (free : Matcher σ) (record : FreeRecorder)
    (inv : σ → List Name → List Name → Prop) : Prop where
  /-- A free head is recorded as free. -/
  isFree : ∀ seen x n, (record seen x n).1.isFree = true
  /-- Names that match are recorded by the same mark. -/
  mark_eq : ∀ {state state' seen seen' f g n}, inv state seen seen' →
    free state f g (n == 0) = some state' → (record seen f n).1 = (record seen' g n).1 ∧
      inv state' (record seen f n).2 (record seen' g n).2
  /-- Names that are recorded by the same mark match. -/
  exists_match : ∀ {state seen seen' f g n}, inv state seen seen' →
    (record seen f n).1 = (record seen' g n).1 → ∃ state', free state f g (n == 0) = some state'

section

variable {σ : Type} {free : Matcher σ} {record : FreeRecorder}
  {inv : σ → List Name → List Name → Prop} {left right : Scope} {state state' : σ}
  {seen seen' : List Name}

lemma align_atomic (f g : Name) (as bs : List Proposition) :
    align free left right (atomic f as) (atomic g bs) state =
      (alignHead free left right f g (as.length == 0) state).bind
        (alignAll free left right as bs) := by
  have hempty : as.isEmpty = (as.length == 0) := by cases as <;> rfl
  rw [align, alignHead, hempty]
  cases left.level? f with
  | none => cases right.level? g <;> rfl
  | some i =>
    cases right.level? g with
    | none => rfl
    | some j =>
      dsimp only
      split
      · rfl
      · rfl

lemma length_eq_of_alignAll {ps qs : List Proposition}
    (h : alignAll free left right ps qs state = some state') : ps.length = qs.length := by
  induction ps generalizing qs state with
  | nil =>
    cases qs with
    | nil => rfl
    | cons q qs => simp [alignAll] at h
  | cons p ps ih =>
    cases qs with
    | nil => simp [alignAll] at h
    | cons q qs =>
      obtain ⟨middle, -, h⟩ := Option.bind_eq_some_iff.1 h
      rw [List.length_cons, List.length_cons, ih h]

namespace Records

variable (hrecords : Records free record inv)
include hrecords

lemma isHead_digestHead (scope : Scope) (seen : List Name) (x : Name) (n : ℕ) :
    (digestHead record scope seen x n).1.isHead = true := by
  rw [digestHead]
  split
  · rfl
  · exact DigestMark.isHead_of_isFree (hrecords.isFree seen x n)

lemma head_eq (hinv : inv state seen seen') {f g : Name} {n : ℕ}
    (h : alignHead free left right f g (n == 0) state = some state') :
    (digestHead record left seen f n).1 = (digestHead record right seen' g n).1 ∧
      inv state' (digestHead record left seen f n).2 (digestHead record right seen' g n).2 := by
  rw [alignHead] at h
  rw [digestHead, digestHead]
  cases hf : left.level? f with
  | none =>
    cases hg : right.level? g with
    | none => exact hrecords.mark_eq hinv (by simpa only [hf, hg] using h)
    | some j => simp [hf, hg] at h
  | some i =>
    cases hg : right.level? g with
    | none => simp [hf, hg] at h
    | some j =>
      obtain ⟨rfl, rfl⟩ : i = j ∧ state = state' := by simpa [hf, hg] using h
      exact ⟨rfl, hinv⟩

lemma exists_alignHead (hinv : inv state seen seen') {f g : Name} {n : ℕ}
    (h : (digestHead record left seen f n).1 = (digestHead record right seen' g n).1) :
    ∃ state', alignHead free left right f g (n == 0) state = some state' := by
  rw [alignHead]
  rw [digestHead, digestHead] at h
  cases hf : left.level? f with
  | none =>
    cases hg : right.level? g with
    | none => exact hrecords.exists_match hinv (by simpa only [hf, hg] using h)
    | some j =>
      rw [hf, hg] at h
      exact absurd h (DigestMark.ne_bound_of_isFree (hrecords.isFree seen f n) j)
  | some i =>
    cases hg : right.level? g with
    | none =>
      rw [hf, hg] at h
      exact absurd h.symm (DigestMark.ne_bound_of_isFree (hrecords.isFree seen' g n) i)
    | some j =>
      have hij : i = j := by simpa [hf, hg] using h
      exact ⟨state, if_pos hij⟩

end Records

/-! ## Aligned propositions have equal digests -/

lemma digestIn_atomic (scope : Scope) (seen : List Name) (f : Name) (as : List Proposition) :
    (atomic f as).digestIn record scope seen =
      (.atomic as.length :: (digestHead record scope seen f as.length).1 ::
        (digestAllIn record scope (digestHead record scope seen f as.length).2 as).1,
      (digestAllIn record scope (digestHead record scope seen f as.length).2 as).2) := rfl

lemma digestAllIn_eq_of_alignAll {ps : List Proposition}
    (h : ∀ p ∈ ps, ∀ {q state state' seen seen'}, inv state seen seen' →
      align free left right p q state = some state' →
      (p.digestIn record left seen).1 = (q.digestIn record right seen').1 ∧
        inv state' (p.digestIn record left seen).2 (q.digestIn record right seen').2)
    {qs : List Proposition} (hinv : inv state seen seen')
    (halign : alignAll free left right ps qs state = some state') :
    (digestAllIn record left seen ps).1 = (digestAllIn record right seen' qs).1 ∧
      inv state' (digestAllIn record left seen ps).2 (digestAllIn record right seen' qs).2 := by
  induction ps generalizing qs state seen seen' with
  | nil =>
    cases qs with
    | nil =>
      obtain rfl := Option.some.inj halign
      exact ⟨rfl, hinv⟩
    | cons q qs => simp [alignAll] at halign
  | cons p ps ih =>
    cases qs with
    | nil => simp [alignAll] at halign
    | cons q qs =>
      obtain ⟨hp, hps⟩ := List.forall_mem_cons.1 h
      obtain ⟨middle, hfirst, hrest⟩ := Option.bind_eq_some_iff.1 halign
      obtain ⟨hfirst, hinv⟩ := hp hinv hfirst
      obtain ⟨hrest, hinv⟩ := ih hps hinv hrest
      exact ⟨congrArg₂ (· ++ ·) hfirst hrest, hinv⟩

/-- Aligned propositions have equal digests. -/
lemma digestIn_eq_of_align (hrecords : Records free record inv) {p q : Proposition}
    (hinv : inv state seen seen') (h : align free left right p q state = some state') :
    (p.digestIn record left seen).1 = (q.digestIn record right seen').1 ∧
      inv state' (p.digestIn record left seen).2 (q.digestIn record right seen').2 := by
  induction p generalizing q left right state state' seen seen' with
  | atomic f as ih =>
    cases q with
    | atomic g bs =>
      rw [align_atomic] at h
      obtain ⟨middle, hhead, hargs⟩ := Option.bind_eq_some_iff.1 h
      obtain ⟨hhead, hinv⟩ := hrecords.head_eq hinv hhead
      rw [digestIn_atomic, digestIn_atomic, ← length_eq_of_alignAll hargs, ← hhead]
      obtain ⟨hargs, hinv⟩ := digestAllIn_eq_of_alignAll (fun p hp _ _ _ _ _ => ih p hp) hinv hargs
      exact ⟨by rw [hargs], hinv⟩
    | connective | quantifier | fixpoint => simp [align] at h
  | connective k as ih =>
    cases q with
    | connective l bs =>
      rw [align, Option.ite_none_right_eq_some] at h
      obtain ⟨rfl, hargs⟩ := h
      rw [digestIn, digestIn, ← length_eq_of_alignAll hargs]
      obtain ⟨hargs, hinv⟩ := digestAllIn_eq_of_alignAll (fun p hp _ _ _ _ _ => ih p hp) hinv hargs
      exact ⟨congrArg (_ :: ·) hargs, hinv⟩
    | atomic | quantifier | fixpoint => simp [align] at h
  | quantifier k vs a ih =>
    cases q with
    | quantifier l ws b =>
      rw [align, Option.ite_none_right_eq_some] at h
      obtain ⟨⟨rfl, hcount⟩, hbody⟩ := h
      rw [digestIn, digestIn, hcount]
      obtain ⟨hbody, hinv⟩ := ih hinv hbody
      exact ⟨congrArg (_ :: ·) hbody, hinv⟩
    | atomic | connective | fixpoint => simp [align] at h
  | fixpoint k m vs a as iha ihas =>
    cases q with
    | fixpoint l n ws b bs =>
      rw [align, Option.ite_none_right_eq_some] at h
      obtain ⟨⟨rfl, hcount⟩, h⟩ := h
      -- Both walks take the arguments before the body.
      obtain ⟨middle, hargs, hbody⟩ := Option.bind_eq_some_iff.1 h
      rw [digestIn, digestIn, hcount, ← length_eq_of_alignAll hargs]
      obtain ⟨hargs, hinv⟩ :=
        digestAllIn_eq_of_alignAll (fun p hp _ _ _ _ _ => ihas p hp) hinv hargs
      obtain ⟨hbody, hinv⟩ := iha hinv hbody
      exact ⟨congrArg (_ :: ·) (congrArg₂ (· ++ ·) hargs hbody), hinv⟩
    | atomic | connective | quantifier => simp [align] at h

/-! ## Propositions with equal data are aligned -/

lemma exists_alignAll_of_data_eq (hrecords : Records free record inv) {ps : List Proposition}
    (h : ∀ p ∈ ps, ∀ {q state seen seen' rest rest'}, inv state seen seen' →
      (p.digestIn record left seen).1.data ++ rest =
        (q.digestIn record right seen').1.data ++ rest' →
      (∃ state', align free left right p q state = some state') ∧ rest = rest')
    {qs : List Proposition} {rest rest' : List HashDatum} (hlength : ps.length = qs.length)
    (hinv : inv state seen seen')
    (hdata : (digestAllIn record left seen ps).1.data ++ rest =
      (digestAllIn record right seen' qs).1.data ++ rest') :
    (∃ state', alignAll free left right ps qs state = some state') ∧ rest = rest' := by
  induction ps generalizing qs state seen seen' with
  | nil =>
    cases qs with
    | nil => exact ⟨⟨state, rfl⟩, hdata⟩
    | cons q qs => cases hlength
  | cons p ps ih =>
    cases qs with
    | nil => cases hlength
    | cons q qs =>
      obtain ⟨hp, hps⟩ := List.forall_mem_cons.1 h
      rw [digestAllIn, digestAllIn, Digest.data_append, Digest.data_append, List.append_assoc,
        List.append_assoc] at hdata
      obtain ⟨⟨middle, hfirst⟩, hdata⟩ := hp hinv hdata
      obtain ⟨-, hinv⟩ := digestIn_eq_of_align hrecords hinv hfirst
      obtain ⟨⟨state', hrest⟩, hdata⟩ := ih hps (Nat.succ.inj hlength) hinv hdata
      exact ⟨⟨state', Option.bind_eq_some_iff.2 ⟨middle, hfirst, hrest⟩⟩, hdata⟩

/-- Propositions with equal data are aligned, and the data says where it ends. -/
lemma exists_align_of_data_eq (hrecords : Records free record inv) {p q : Proposition}
    {rest rest' : List HashDatum} (hinv : inv state seen seen')
    (hdata : (p.digestIn record left seen).1.data ++ rest =
      (q.digestIn record right seen').1.data ++ rest') :
    (∃ state', align free left right p q state = some state') ∧ rest = rest' := by
  induction p generalizing q left right state seen seen' rest rest' with
  | atomic f as ih =>
    cases q with
    | atomic g bs =>
      -- The number of arguments stands in front of everything else.
      simp only [digestIn_atomic, Digest.data_cons, List.append_assoc] at hdata
      obtain ⟨hlength, hdata⟩ : as.length = bs.length ∧ _ := by
        simpa only [DigestMark.data, List.cons_append, List.nil_append, List.cons.injEq, true_and,
          HashDatum.word.injEq] using hdata
      rw [← hlength] at hdata
      obtain ⟨hhead, hdata⟩ := DigestMark.eq_of_data_append_eq (hrecords.isHead_digestHead ..)
        (hrecords.isHead_digestHead ..) hdata
      obtain ⟨middle, hhead⟩ := hrecords.exists_alignHead hinv hhead
      obtain ⟨-, hinv⟩ := hrecords.head_eq hinv hhead
      obtain ⟨⟨state', hargs⟩, hdata⟩ := exists_alignAll_of_data_eq hrecords
        (fun p hp _ _ _ _ _ _ => ih p hp) hlength hinv hdata
      rw [align_atomic]
      exact ⟨⟨state', Option.bind_eq_some_iff.2 ⟨middle, hhead, hargs⟩⟩, hdata⟩
    | connective | quantifier | fixpoint =>
      simp [digestIn, Digest.data_cons, DigestMark.data] at hdata
  | connective k as ih =>
    cases q with
    | connective l bs =>
      obtain ⟨hkind, hlength, hdata⟩ : k.number = l.number ∧ as.length = bs.length ∧ _ := by
        simpa only [digestIn, Digest.data_cons, DigestMark.data, List.cons_append, List.nil_append,
          List.cons.injEq, true_and, HashDatum.word.injEq] using hdata
      obtain ⟨⟨state', hargs⟩, hdata⟩ := exists_alignAll_of_data_eq hrecords
        (fun p hp _ _ _ _ _ _ => ih p hp) hlength hinv hdata
      rw [align, if_pos (ConnectiveKind.number_injective hkind)]
      exact ⟨⟨state', hargs⟩, hdata⟩
    | atomic | quantifier | fixpoint => simp [digestIn, Digest.data_cons, DigestMark.data] at hdata
  | quantifier k vs a ih =>
    cases q with
    | quantifier l ws b =>
      obtain ⟨hkind, hlength, hdata⟩ : BinderKind.number (.quantifier k) =
          BinderKind.number (.quantifier l) ∧ vs.length = ws.length ∧ _ := by
        simpa only [digestIn, Digest.data_cons, DigestMark.data, List.cons_append, List.nil_append,
          List.cons.injEq, true_and, HashDatum.word.injEq] using hdata
      have hkind := BinderKind.quantifier.inj (BinderKind.number_injective hkind)
      rw [align, if_pos ⟨hkind, hlength⟩]
      exact ih hinv hdata
    | atomic | connective | fixpoint => simp [digestIn, Digest.data_cons, DigestMark.data] at hdata
  | fixpoint k m vs a as iha ihas =>
    cases q with
    | fixpoint l n ws b bs =>
      obtain ⟨hkind, hlength, hargs, hdata⟩ : BinderKind.number (.fixpoint k) =
          BinderKind.number (.fixpoint l) ∧ vs.length = ws.length ∧ as.length = bs.length ∧ _ := by
        simpa only [digestIn, Digest.data_cons, Digest.data_append, DigestMark.data,
          List.cons_append, List.nil_append, List.append_assoc, List.cons.injEq, true_and,
          HashDatum.word.injEq] using hdata
      have hkind := BinderKind.fixpoint.inj (BinderKind.number_injective hkind)
      obtain ⟨⟨middle, hargs⟩, hdata⟩ := exists_alignAll_of_data_eq hrecords
        (fun p hp _ _ _ _ _ _ => ihas p hp) hargs hinv hdata
      obtain ⟨-, hinv⟩ := digestAllIn_eq_of_alignAll
        (fun p hp _ _ _ _ _ => digestIn_eq_of_align hrecords) hinv hargs
      obtain ⟨⟨state', hbody⟩, hdata⟩ := iha hinv hdata
      rw [align, if_pos ⟨hkind, hlength⟩]
      exact ⟨⟨state', Option.bind_eq_some_iff.2 ⟨middle, hargs, hbody⟩⟩, hdata⟩
    | atomic | connective | quantifier =>
      simp [digestIn, Digest.data_cons, DigestMark.data] at hdata

end

end Proposition

/-! ## What nameless forms determine -/

namespace Nameless

mutual

/-- The number of nodes. -/
def size : Nameless → ℕ
  | bound _ args => 1 + sizeAll args
  | free _ args => 1 + sizeAll args
  | connective _ operands => 1 + sizeAll operands
  | quantifier _ _ body => 1 + body.size
  | fixpoint _ _ body args => 1 + body.size + sizeAll args

/-- The number of nodes of a list of nameless forms. -/
def sizeAll : List Nameless → ℕ
  | [] => 0
  | m :: ms => m.size + sizeAll ms

end

mutual

/-- The free occurrences from left to right. -/
def occurrences : Nameless → List Occurrence
  | bound _ args => occurrencesAll args
  | free name args => Proposition.headOccurrence [] name args.length ++ occurrencesAll args
  | connective _ operands => occurrencesAll operands
  | quantifier _ _ body => body.occurrences
  | fixpoint _ _ body args => occurrencesAll args ++ body.occurrences

/-- The free occurrences in a list of nameless forms, from left to right. -/
def occurrencesAll : List Nameless → List Occurrence
  | [] => []
  | m :: ms => m.occurrences ++ occurrencesAll ms

end

end Nameless

namespace Proposition

lemma sizeAll_namelessAllIn {scope : Scope} {ps : List Proposition}
    (h : ∀ p ∈ ps, (p.namelessIn scope).size = p.size) :
    Nameless.sizeAll (namelessAllIn scope ps) = sizeAll ps := by
  induction ps with
  | nil => rfl
  | cons p ps ih =>
    obtain ⟨hp, hps⟩ := List.forall_mem_cons.1 h
    rw [namelessAllIn, Nameless.sizeAll, sizeAll, hp, ih hps]

lemma size_namelessIn (scope : Scope) (p : Proposition) : (p.namelessIn scope).size = p.size := by
  induction p generalizing scope with
  | atomic f as ih =>
    have hargs := sizeAll_namelessAllIn fun a ha => ih a ha scope
    rw [namelessIn, size]
    cases scope.index? f with
    | none => rw [Nameless.size, hargs]
    | some i => rw [Nameless.size, hargs]
  | connective k as ih =>
    rw [namelessIn, size, Nameless.size, sizeAll_namelessAllIn fun a ha => ih a ha scope]
  | quantifier k vs a ih => rw [namelessIn, size, Nameless.size, ih]
  | fixpoint k n vs a as iha ihas =>
    rw [namelessIn, size, Nameless.size, iha, sizeAll_namelessAllIn fun a ha => ihas a ha scope]

lemma occurrencesAll_namelessAllIn {scope : Scope} {ps : List Proposition}
    (h : ∀ p ∈ ps, (p.namelessIn scope).occurrences = p.freeOccurrences scope) :
    Nameless.occurrencesAll (namelessAllIn scope ps) = freeOccurrencesAll scope ps := by
  induction ps with
  | nil => rfl
  | cons p ps ih =>
    obtain ⟨hp, hps⟩ := List.forall_mem_cons.1 h
    rw [namelessAllIn, Nameless.occurrencesAll, freeOccurrencesAll, hp, ih hps]

lemma occurrences_namelessIn (scope : Scope) (p : Proposition) :
    (p.namelessIn scope).occurrences = p.freeOccurrences scope := by
  induction p generalizing scope with
  | atomic f as ih =>
    have hargs := occurrencesAll_namelessAllIn fun a ha => ih a ha scope
    rw [namelessIn, freeOccurrences, headOccurrence]
    cases hindex : scope.index? f with
    | none =>
      have hf := Scope.index?_eq_none_iff.1 hindex
      have hlength : (namelessAllIn scope as).length = as.length := by
        rw [namelessAllIn_eq_map, List.length_map]
      simp [Nameless.occurrences, hargs, headOccurrence, hf, hlength]
    | some i =>
      have hf := List.mem_of_getElem? (Scope.getElem?_of_index? hindex)
      simp [Nameless.occurrences, hargs, hf]
  | connective k as ih =>
    rw [namelessIn, freeOccurrences, Nameless.occurrences,
      occurrencesAll_namelessAllIn fun a ha => ih a ha scope]
  | quantifier k vs a ih => rw [namelessIn, freeOccurrences, Nameless.occurrences, ih]
  | fixpoint k n vs a as iha ihas =>
    rw [namelessIn, freeOccurrences, Nameless.occurrences, iha,
      occurrencesAll_namelessAllIn fun a ha => ihas a ha scope]

/-! ## Equality up to bound names -/

lemma records_recordName : Records matchExactly recordName fun _ _ _ => True where
  isFree _ _ _ := rfl
  mark_eq _ h := by
    rw [matchExactly, Option.ite_none_right_eq_some] at h
    exact ⟨congrArg DigestMark.named h.1, trivial⟩
  exists_match _ h := ⟨(), if_pos (DigestMark.named.inj h)⟩

lemma digest_eq_of_alphaEquiv {p q : Proposition} (h : p.alphaEquiv q = true) :
    p.digest = q.digest := by
  obtain ⟨state, h⟩ := Option.isSome_iff_exists.1 h
  exact (digestIn_eq_of_align records_recordName trivial h).1

lemma alphaEquiv_of_data_eq {p q : Proposition} (h : p.digest.data = q.digest.data) :
    p.alphaEquiv q = true := by
  have hdata := congrArg (· ++ []) h
  exact Option.isSome_iff_exists.2 (exists_align_of_data_eq records_recordName trivial hdata).1

lemma alphaEquiv_equivalence : Equivalence fun p q : Proposition => p.alphaEquiv q = true where
  refl _ := alphaEquiv_iff.2 rfl
  symm h := alphaEquiv_iff.2 (alphaEquiv_iff.1 h).symm
  trans h h' := alphaEquiv_iff.2 ((alphaEquiv_iff.1 h).trans (alphaEquiv_iff.1 h'))

lemma freeOccurrences_congr {p q : Proposition} (h : p.alphaEquiv q = true) :
    p.freeOccurrences [] = q.freeOccurrences [] := by
  rw [← occurrences_namelessIn, ← occurrences_namelessIn]
  exact congrArg _ (alphaEquiv_iff.1 h)

/-- **Equality up to bound names is equality of nameless forms and of the hashed data.**  Hence it
is an equivalence relation, and it preserves what does not depend on bound names. -/
theorem alphaEquiv_iff_hashed :
    (∀ p q : Proposition, (p.alphaEquiv q = true ↔ p.nameless = q.nameless) ∧
      (p.alphaEquiv q = true ↔ p.digest.data = q.digest.data)) ∧
    Equivalence (fun p q : Proposition => p.alphaEquiv q = true) ∧
    ∀ p q : Proposition, p.alphaEquiv q = true → p.freeNames = q.freeNames ∧
      p.freeVariables = q.freeVariables ∧ p.size = q.size ∧ p.isWellFormed = q.isWellFormed := by
  refine ⟨fun p q => ⟨alphaEquiv_iff, fun h => ?_, alphaEquiv_of_data_eq⟩, alphaEquiv_equivalence,
    fun p q h => ?_⟩
  · rw [digest_eq_of_alphaEquiv h]
  · have hnameless := alphaEquiv_iff.1 h
    refine ⟨?_, ?_, ?_, ?_⟩
    · rw [freeNames, freeNames, freeOccurrences_congr h]
    · rw [freeVariables, freeVariables, freeOccurrences_congr h]
    · rw [← size_namelessIn [], ← size_namelessIn [] q]
      exact congrArg _ hnameless
    · rw [Bool.eq_iff_iff, isWellFormed_iff, isWellFormed_iff, hnameless]

/-- The bound names are exchanged, and the argument of the fixpoint is called like a parameter. -/
theorem alphaEquiv_iff_hashed_exchanged :
    let p := fixpoint .least "N" ["x"] (quantifier .universal ["y"]
      (atomic "P" [.atom "x", atomic "N" [.atom "y"]])) [.atom "x"]
    let q := fixpoint .least "M" ["y"] (quantifier .universal ["x"]
      (atomic "P" [.atom "y", atomic "M" [.atom "x"]])) [.atom "x"]
    p.alphaEquiv q = true ∧ p.digest.data = q.digest.data ∧ q.alphaEquiv p = true ∧
      p.freeNames = q.freeNames ∧ p.freeVariables = q.freeVariables ∧ p.size = q.size ∧
      p.isWellFormed = q.isWellFormed := by
  intro p q
  obtain ⟨hiff, hequivalence, hpreserved⟩ := alphaEquiv_iff_hashed
  have h : p.alphaEquiv q = true := by decide +kernel
  exact ⟨h, (hiff p q).2.1 h, hequivalence.symm h, hpreserved p q h⟩

end Proposition

end CyclicProof
