/-
Cobalt.Lib.Linearizable — histories that could have been sequential.

A history is the sequence of calls and returns that the callers of an object
see. It is linearizable when the operations that returned, and some that are
still running, can be put in one order in which the sequential object gives
the answers they got, and in which an operation that returned before another
one was called comes first.

`Timed` is the invariant that a proof about steps keeps: a log of operations
with the moments (lengths of the history) at which they take effect. An
operation that changes the object is written at the end of the log
(`Timed.commit`). One that only reads may be written later at a moment that
has passed (`Timed.read`): all it takes is that the log went through a state
in which the answer is right (`Passed`), and such moments are not lost when
the log grows.
-/
import Mathlib

namespace Cobalt.Linear

open List

variable {A Op Res : Type}

inductive Event (Op Res : Type) where
  | call (id : Nat) (op : Op)
  | ret (id : Nat) (res : Res)
  deriving DecidableEq, Repr

/-- One operation of a sequential run, with its answer. -/
structure Entry (Op Res : Type) where
  id : Nat
  op : Op
  res : Res
  deriving DecidableEq, Repr

/-- The sequential object gives the answers of the run, from `a` to `b`. -/
def Legal (apply : A → Op → Res × A) : A → List (Entry Op Res) → A → Prop
  | a, [], b => a = b
  | a, e :: es, b => (apply a e.op).1 = e.res ∧ Legal apply (apply a e.op).2 es b

/-- In the history, `i` returned before `j` was called. -/
def Precedes (H : List (Event Op Res)) (i j : Nat) : Prop :=
  ∃ (p q : Nat) (res : Res) (op : Op), p < q ∧ H[p]? = some (Event.ret i res) ∧ H[q]? = some (Event.call j op)

/-- The history has a sequential order. -/
def Linearizable (apply : A → Op → Res × A) (a₀ : A) (H : List (Event Op Res)) : Prop :=
  ∃ es a, Legal apply a₀ es a ∧ (es.map Entry.id).Nodup ∧ (∀ e ∈ es, Event.call e.id e.op ∈ H) ∧
    (∀ id res, Event.ret id res ∈ H → ∃ e ∈ es, e.id = id ∧ e.res = res) ∧
    ∀ i j, Precedes H i j → ∀ before e after, es = before ++ e :: after → e.id = j →
      ∃ e' ∈ before, e'.id = i

variable {apply : A → Op → Res × A} {a0 a b c : A} {H : List (Event Op Res)}
  {es fs : List (Entry Op Res)}

lemma Legal.append_iff : Legal apply a (es ++ fs) c ↔
    ∃ b, Legal apply a es b ∧ Legal apply b fs c := by
  induction es generalizing a with
  | nil => simp [Legal]
  | cons e es ih =>
    simp only [cons_append, Legal, ih]
    constructor
    · rintro ⟨hres, b, hes, hfs⟩
      exact ⟨b, ⟨hres, hes⟩, hfs⟩
    · rintro ⟨b, ⟨hres, hes⟩, hfs⟩
      exact ⟨hres, b, hes, hfs⟩

lemma Legal.unique (h : Legal apply a es b) (h' : Legal apply a es c) : b = c := by
  induction es generalizing a with
  | nil => exact (h : a = b).symm.trans h'
  | cons e es ih => exact ih h.2 h'.2

/-! ## Logs with moments -/

/-- An operation and the moment at which it takes effect. -/
structure Stamped (Op Res : Type) extends Entry Op Res where
  time : Nat

variable {ts : List (Stamped Op Res)} {x : Stamped Op Res} {t : Nat} {id : Nat} {op : Op}
  {res : Res}

/-- The operations of a log, in its order. -/
def entries (ts : List (Stamped Op Res)) : List (Entry Op Res) := ts.map Stamped.toEntry

/-- The operation was called before the moment. -/
def CalledBefore (H : List (Event Op Res)) (id : Nat) (op : Op) (t : Nat) : Prop :=
  ∃ p < t, H[p]? = some (Event.call id op)

/-- The log accounts for the history, and leaves the object in `a`. -/
structure Timed (apply : A → Op → Res × A) (a₀ : A) (H : List (Event Op Res))
    (ts : List (Stamped Op Res)) (a : A) : Prop where
  legal : Legal apply a₀ (entries ts) a
  nodup : (ts.map fun x => x.id).Nodup
  sorted : ts.Pairwise fun x y => x.time ≤ y.time
  called : ∀ x ∈ ts, CalledBefore H x.id x.op x.time
  bound : ∀ x ∈ ts, x.time ≤ H.length
  returned : ∀ (p id : Nat) (res : Res), H[p]? = some (Event.ret id res) →
    ∃ x ∈ ts, x.id = id ∧ x.res = res ∧ x.time ≤ p
  callOnce : ∀ (p q id : Nat) (op op' : Op), H[p]? = some (Event.call id op) →
    H[q]? = some (Event.call id op') → p = q

/-- At the moment `t` the log goes through the state `b`. -/
def Passed (apply : A → Op → Res × A) (a₀ : A) (ts : List (Stamped Op Res)) (b : A) (t : Nat) :
    Prop :=
  ∃ before after, ts = before ++ after ∧ Legal apply a₀ (entries before) b ∧
    (∀ x ∈ before, x.time ≤ t) ∧ ∀ x ∈ after, t ≤ x.time

lemma getElem?_snoc {xs : List (Event Op Res)} {e e' : Event Op Res} {p : Nat} :
    (xs ++ [e'])[p]? = some e ↔ xs[p]? = some e ∨ p = xs.length ∧ e' = e := by
  rcases Nat.lt_trichotomy p xs.length with hp | hp | hp
  · rw [getElem?_append_left hp]
    exact ⟨.inl, fun h => h.resolve_right fun hend => absurd hend.1 (Nat.ne_of_lt hp)⟩
  · subst hp
    simp
  · rw [getElem?_eq_none (by simp; omega), getElem?_eq_none (Nat.le_of_lt hp)]
    simp only [reduceCtorEq, false_or, false_iff, not_and]
    exact fun heq => absurd heq (Nat.ne_of_gt hp)

lemma CalledBefore.mono {H' : List (Event Op Res)} {t' : Nat} (h : CalledBefore H id op t)
    (hpre : H <+: H') (ht : t ≤ t') : CalledBefore H' id op t' := by
  obtain ⟨p, hp, hcall⟩ := h
  obtain ⟨tail, rfl⟩ := hpre
  obtain ⟨hlt, -⟩ := List.getElem?_eq_some_iff.mp hcall
  exact ⟨p, Nat.lt_of_lt_of_le hp ht, by rwa [getElem?_append_left hlt]⟩

/-- What the log went through is not lost when an operation that only reads is
written at another moment. -/
lemma Passed.insert {before after : List (Stamped Op Res)} {τ : Nat}
    (h : Passed apply a0 (before ++ after) c τ)
    (hlegal : Legal apply a0 (entries before) b) (hbefore : ∀ y ∈ before, y.time ≤ x.time)
    (hafter : ∀ y ∈ after, x.time ≤ y.time) (hres : (apply b x.op).1 = x.res)
    (hkeep : (apply b x.op).2 = b) : Passed apply a0 (before ++ x :: after) c τ := by
  obtain ⟨p, q, hsplit, hp, hple, hqle⟩ := h
  rcases append_eq_append_iff.mp hsplit with ⟨m, rfl, rfl⟩ | ⟨m, rfl, rfl⟩
  · by_cases hx : x.time ≤ τ
    · refine ⟨before ++ x :: m, q, by simp, ?_, ?_, hqle⟩
      · rw [entries, map_append] at hp ⊢
        obtain ⟨b', hb', hm⟩ := Legal.append_iff.mp hp
        obtain rfl := hlegal.unique hb'
        exact Legal.append_iff.mpr ⟨b, hb', hres, by rwa [hkeep]⟩
      · intro y hy
        rcases mem_append.mp hy with hy | hy
        · exact hple y (mem_append_left _ hy)
        · rcases mem_cons.mp hy with rfl | hy
          · exact hx
          · exact hple y (mem_append_right _ hy)
    · -- nothing stands between the two moments
      have hm : m = [] := by
        cases m with
        | nil => rfl
        | cons y m =>
          have h1 := hafter y (by simp)
          have h2 := hple y (by simp)
          omega
      subst hm
      rw [append_nil] at hp hple
      refine ⟨before, x :: q, by simp, hp, hple, fun y hy => ?_⟩
      rcases mem_cons.mp hy with rfl | hy
      · omega
      · exact hqle y hy
  · by_cases hx : τ ≤ x.time
    · refine ⟨p, m ++ x :: after, by simp, hp, hple, fun y hy => ?_⟩
      rcases mem_append.mp hy with hy | hy
      · exact hqle y (mem_append_left _ hy)
      · rcases mem_cons.mp hy with rfl | hy
        · exact hx
        · exact hqle y (mem_append_right _ hy)
    · have hm : m = [] := by
        cases m with
        | nil => rfl
        | cons y m =>
          have h1 := hbefore y (by simp)
          have h2 := hqle y (by simp)
          omega
      subst hm
      rw [append_nil] at hlegal hbefore
      obtain rfl := hlegal.unique hp
      refine ⟨p ++ [x], after, by simp, ?_, ?_, fun y hy => hqle y (by simpa using hy)⟩
      · rw [entries, map_append]
        exact Legal.append_iff.mpr ⟨b, hp, hres, hkeep⟩
      · intro y hy
        rcases mem_append.mp hy with hy | hy
        · exact hple y hy
        · rw [mem_singleton.mp hy]
          omega

lemma Passed.snoc {τ : Nat} (h : Passed apply a0 ts b τ) (hx : τ ≤ x.time) :
    Passed apply a0 (ts ++ [x]) b τ := by
  obtain ⟨p, q, rfl, hp, hple, hqle⟩ := h
  refine ⟨p, q ++ [x], by simp, hp, hple, fun y hy => ?_⟩
  rcases mem_append.mp hy with hy | hy
  · exact hqle y hy
  · rw [mem_singleton.mp hy]
    exact hx

namespace Timed

lemma nil (apply : A → Op → Res × A) (a0 : A) : Timed apply a0 [] [] a0 :=
  ⟨rfl, nodup_nil, List.Pairwise.nil, by simp, by simp, by simp, by simp⟩

variable (h : Timed apply a0 H ts a)

include h

lemma call (hfresh : ∀ op', Event.call id op' ∉ H) :
    Timed apply a0 (H ++ [.call id op]) ts a where
  legal := h.legal
  nodup := h.nodup
  sorted := h.sorted
  called x hx := (h.called x hx).mono (prefix_append _ _) (Nat.le_refl _)
  bound x hx := Nat.le_trans (h.bound x hx) (by simp)
  returned p id' res hp := by
    rcases getElem?_snoc.mp hp with hp | ⟨-, hp⟩
    · exact h.returned p id' res hp
    · cases hp
  callOnce p q id' op1 op2 hp hq := by
    rcases getElem?_snoc.mp hp with hp' | ⟨rfl, hp'⟩ <;>
      rcases getElem?_snoc.mp hq with hq' | ⟨rfl, hq'⟩
    · exact h.callOnce p q id' op1 op2 hp' hq'
    · cases hq'
      exact absurd (mem_of_getElem? hp') (hfresh op1)
    · cases hp'
      exact absurd (mem_of_getElem? hq') (hfresh op2)
    · rfl

lemma ret (hx : x ∈ ts) (hid : x.id = id) (hres : x.res = res) :
    Timed apply a0 (H ++ [.ret id res]) ts a where
  legal := h.legal
  nodup := h.nodup
  sorted := h.sorted
  called y hy := (h.called y hy).mono (prefix_append _ _) (Nat.le_refl _)
  bound y hy := Nat.le_trans (h.bound y hy) (by simp)
  returned p id' res' hp := by
    rcases getElem?_snoc.mp hp with hp' | ⟨rfl, hp'⟩
    · exact h.returned p id' res' hp'
    · cases hp'
      exact ⟨x, hx, hid, hres, h.bound x hx⟩
  callOnce p q id' op1 op2 hp hq := by
    rcases getElem?_snoc.mp hp with hp | ⟨-, hp⟩
    · rcases getElem?_snoc.mp hq with hq | ⟨-, hq⟩
      · exact h.callOnce p q id' op1 op2 hp hq
      · cases hq
    · cases hp

lemma commit (hcall : Event.call id op ∈ H)
    (hnew : id ∉ ts.map fun x => x.id) (happly : apply a op = (res, b)) :
    Timed apply a0 H (ts ++ [⟨⟨id, op, res⟩, H.length⟩]) b where
  legal := by
    rw [entries, map_append]
    exact Legal.append_iff.mpr ⟨a, h.legal, by simp [Legal, happly]⟩
  nodup := by
    rw [map_append, map_singleton, ← concat_eq_append]
    exact h.nodup.concat hnew
  sorted := by
    refine pairwise_append.mpr ⟨h.sorted, pairwise_singleton _ _, fun y hy z hz => ?_⟩
    rw [mem_singleton.mp hz]
    exact h.bound y hy
  called y hy := by
    rcases mem_append.mp hy with hy | hy
    · exact h.called y hy
    · rw [mem_singleton.mp hy]
      obtain ⟨p, hp, hcall⟩ := getElem_of_mem hcall
      exact ⟨p, hp, by rw [getElem?_eq_getElem hp, hcall]⟩
  bound y hy := by
    rcases mem_append.mp hy with hy | hy
    · exact h.bound y hy
    · obtain rfl := mem_singleton.mp hy
      exact Nat.le_refl _
  returned p id' res' hp := by
    obtain ⟨y, hy, hfacts⟩ := h.returned p id' res' hp
    exact ⟨y, mem_append_left _ hy, hfacts⟩
  callOnce := h.callOnce

lemma passed_now : Passed apply a0 ts a H.length :=
  ⟨ts, [], (append_nil _).symm, h.legal, h.bound, by simp⟩

/-- An operation that only reads takes effect at a moment that has passed. -/
lemma read (hpassed : Passed apply a0 ts b t) (hcall : CalledBefore H id op t) (ht : t ≤ H.length)
    (hnew : id ∉ ts.map fun x => x.id) (happly : apply b op = (res, b)) :
    ∃ ts', Timed apply a0 H ts' a ∧ (∀ x, x ∈ ts' ↔ x ∈ ts ∨ x = ⟨⟨id, op, res⟩, t⟩) ∧
      ∀ c τ, Passed apply a0 ts c τ → Passed apply a0 ts' c τ := by
  obtain ⟨before, after, rfl, hlegal, hbefore, hafter⟩ := hpassed
  have hsorted := pairwise_append.mp h.sorted
  have hmem : ∀ x, x ∈ before ++ ⟨⟨id, op, res⟩, t⟩ :: after ↔
      x ∈ before ++ after ∨ x = ⟨⟨id, op, res⟩, t⟩ := by
    intro x
    simp only [mem_append, mem_cons]
    tauto
  refine ⟨before ++ ⟨⟨id, op, res⟩, t⟩ :: after, ⟨?_, ?_, ?_, ?_, ?_, ?_, h.callOnce⟩, hmem, ?_⟩
  · have hall := h.legal
    rw [entries, map_append] at hall ⊢
    obtain ⟨b', hb', hrest⟩ := Legal.append_iff.mp hall
    obtain rfl := hlegal.unique hb'
    exact Legal.append_iff.mpr ⟨b, hb', by simp [happly], by simpa [happly] using hrest⟩
  · have hperm : (before ++ ⟨⟨id, op, res⟩, t⟩ :: after).Perm
        (⟨⟨id, op, res⟩, t⟩ :: (before ++ after)) := perm_middle
    exact (hperm.map _).nodup_iff.mpr (nodup_cons.mpr ⟨hnew, h.nodup⟩)
  · refine pairwise_append.mpr ⟨hsorted.1, pairwise_cons.mpr ⟨hafter, hsorted.2.1⟩, ?_⟩
    intro x hx y hy
    rcases mem_cons.mp hy with rfl | hy
    · exact hbefore x hx
    · exact hsorted.2.2 x hx y hy
  · intro x hx
    rcases (hmem x).mp hx with hx | rfl
    · exact h.called x hx
    · exact hcall
  · intro x hx
    rcases (hmem x).mp hx with hx | rfl
    · exact h.bound x hx
    · exact ht
  · intro p id' res' hp
    obtain ⟨y, hy, hfacts⟩ := h.returned p id' res' hp
    exact ⟨y, (hmem y).mpr (.inl hy), hfacts⟩
  · exact fun c τ hc => hc.insert hlegal hbefore hafter (by rw [happly]) (by rw [happly])

/-- A history with a log is linearizable. -/
lemma linearizable : Linearizable apply a0 H := by
  have hids : (entries ts).map Entry.id = ts.map fun x => x.id := by
    rw [entries, map_map]
    rfl
  refine ⟨entries ts, a, h.legal, hids ▸ h.nodup, ?_, ?_, ?_⟩
  · intro e he
    obtain ⟨x, hx, rfl⟩ := mem_map.mp he
    obtain ⟨p, -, hp⟩ := h.called x hx
    exact mem_of_getElem? hp
  · intro id res hret
    obtain ⟨p, hp, hret⟩ := getElem_of_mem hret
    obtain ⟨x, hx, hid, hres, -⟩ := h.returned p id res (by rw [getElem?_eq_getElem hp, hret])
    exact ⟨x.toEntry, mem_map_of_mem hx, hid, hres⟩
  · rintro i j ⟨p, q, res, op, hpq, hret, hcall⟩ before e after hsplit hj
    obtain ⟨x, hx, hid, -, htime⟩ := h.returned p i res hret
    obtain ⟨ts1, rest, rfl, rfl, hrest⟩ := map_eq_append_iff.mp hsplit
    obtain ⟨y, ts2, rfl, rfl, -⟩ := map_eq_cons_iff.mp hrest
    -- the later operation takes effect after its call, so after the earlier one
    obtain ⟨r, hr, hcall'⟩ := h.called y (by simp)
    have hcall'' : H[r]? = some (Event.call j y.op) := hj ▸ hcall'
    have hrq := h.callOnce r q j y.op op hcall'' hcall
    have hlt : x.time < y.time := by omega
    have hsorted := pairwise_append.mp h.sorted
    rcases mem_append.mp hx with hx | hx
    · exact ⟨x.toEntry, mem_map_of_mem hx, hid⟩
    · rcases mem_cons.mp hx with rfl | hx
      · exact absurd hlt (Nat.lt_irrefl _)
      · have hle := (pairwise_cons.mp hsorted.2.1).1 x hx
        omega

end Timed

/-! ## Histories that have no sequential order -/

/-- What is left of a sequential order from the state `a` on: operations of the
history, among them all that returned and are not in `past`. -/
structure Rest (apply : A → Op → Res × A) (H : List (Event Op Res)) (past : List Nat) (a : A)
    (es : List (Entry Op Res)) : Prop where
  legal : ∃ b, Legal apply a es b
  nodup : (es.map Entry.id).Nodup
  called : ∀ e ∈ es, Event.call e.id e.op ∈ H ∧ e.id ∉ past
  returned : ∀ id res, Event.ret id res ∈ H → id ∉ past → ∃ e ∈ es, e.id = id ∧ e.res = res

lemma Rest.next {past : List Nat} (h : Rest apply H past a es)
    (hret : ∃ id res, Event.ret id res ∈ H ∧ id ∉ past) :
    ∃ e es', es = e :: es' ∧ Event.call e.id e.op ∈ H ∧ e.id ∉ past ∧
      (∀ res, Event.ret e.id res ∈ H → e.res = res) ∧ (apply a e.op).1 = e.res ∧
      Rest apply H (e.id :: past) (apply a e.op).2 es' := by
  cases es with
  | nil =>
    obtain ⟨id, res, hmem, hpast⟩ := hret
    obtain ⟨e, he, -⟩ := h.returned id res hmem hpast
    cases he
  | cons e es =>
    obtain ⟨b, hres, hlegal⟩ := h.legal
    obtain ⟨hcall, hpast⟩ := h.called e mem_cons_self
    obtain ⟨hnot, hnodup⟩ := nodup_cons.mp h.nodup
    refine ⟨e, es, rfl, hcall, hpast, fun res hmem => ?_, hres, ⟨b, hlegal⟩, hnodup,
      fun f hf => ⟨(h.called f (mem_cons_of_mem _ hf)).1, fun hid => ?_⟩, fun id res hmem hid => ?_⟩
    · obtain ⟨f, hf, hid, hfres⟩ := h.returned e.id res hmem hpast
      rcases mem_cons.mp hf with rfl | hf
      · exact hfres
      · exact absurd (hid ▸ mem_map_of_mem hf) hnot
    · rcases mem_cons.mp hid with hid | hid
      · exact hnot (hid ▸ mem_map_of_mem hf)
      · exact (h.called f (mem_cons_of_mem _ hf)).2 hid
    · obtain ⟨f, hf, hfid, hfres⟩ := h.returned id res hmem fun hin =>
        hid (mem_cons_of_mem _ hin)
      rcases mem_cons.mp hf with rfl | hf
      · exact absurd (hfid ▸ mem_cons_self) hid
      · exact ⟨f, hf, hfid, hfres⟩

/-- An operation that returned before any other was called comes first. -/
lemma Linearizable.first {i : Nat} (h : Linearizable apply a0 H)
    (hret : Event.ret i res ∈ H) (hfirst : ∀ j op, Event.call j op ∈ H → j ≠ i → Precedes H i j) :
    ∃ op es, Event.call i op ∈ H ∧ (apply a0 op).1 = res ∧ Rest apply H [i] (apply a0 op).2 es := by
  obtain ⟨es, b, hlegal, hnodup, hcalled, hreturned, horder⟩ := h
  have hrest : Rest apply H [] a0 es :=
    ⟨⟨b, hlegal⟩, hnodup, fun e he => ⟨hcalled e he, not_mem_nil⟩,
      fun id res hmem _ => hreturned id res hmem⟩
  obtain ⟨e, es', rfl, hcall, -, hres, hanswer, hnext⟩ := hrest.next ⟨i, res, hret, not_mem_nil⟩
  -- the first operation cannot be another one: `i` would have to precede it
  have hei : e.id = i := by
    by_contra hne
    obtain ⟨e', he', -⟩ := horder i e.id (hfirst e.id e.op hcall hne) [] e es' rfl rfl
    cases he'
  subst hei
  exact ⟨e.op, es', hcall, hanswer.trans (hres res hret), hnext⟩

end Cobalt.Linear
