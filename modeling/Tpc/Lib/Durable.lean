import Mathlib.Data.List.AList
import Mathlib.Data.List.Sort
import Mathlib.Tactic.SplitIfs

/-! Programs over a durable key-value store whose calls may fail and whose process may be lost
between two calls. A program is a tree of calls; running it consumes one fate for each store call
and one reading for each look at the clock, and leaves every clock reading, failed call, loss of
the process and note of the program in a history, newest entry first. The weakest precondition
`wp` ranges over all fates and readings that an assumption on histories allows. -/

namespace Durable

inductive Fate
  | ok
  | fail
  | crash
deriving DecidableEq, Repr

inductive Got (V : Type)
  | found (v : V)
  | notFound
  | error
deriving DecidableEq, Repr

inductive Entry (P C E : Type)
  | clock (p : P) (c : C)
  | dbError (p : P)
  | crash (p : P)
  | note (e : E)
deriving DecidableEq, Repr

inductive Prog (K V C E α : Type)
  | ret (a : α)
  | get (k : K) (next : Got V → Prog K V C E α)
  | put (k : K) (v : V) (next : Bool → Prog K V C E α)
  | scan (next : List (K × V) → Prog K V C E α)
  | clock (next : C → Prog K V C E α)
  | tell (e : E) (next : Prog K V C E α)
  | abort
  | spin

abbrev Store (K V : Type) := AList (fun _ : K => V)

structure World (K V P C E : Type) where
  store : Store K V
  hist : List (Entry P C E)

inductive Outcome (α : Type)
  | done (a : α)
  | died
  | running
deriving DecidableEq, Repr

variable {K V P C E α β : Type}

namespace Prog

def bind : Prog K V C E α → (α → Prog K V C E β) → Prog K V C E β
  | ret a, f => f a
  | get k next, f => get k fun r => (next r).bind f
  | put k v next, f => put k v fun b => (next b).bind f
  | scan next, f => scan fun l => (next l).bind f
  | clock next, f => clock fun c => (next c).bind f
  | tell e next, f => tell e (next.bind f)
  | abort, _ => abort
  | spin, _ => spin

instance : Monad (Prog K V C E) where
  pure := ret
  bind := bind

@[simp] theorem pure_eq (a : α) : (pure a : Prog K V C E α) = ret a := rfl

@[simp] theorem bind_eq (p : Prog K V C E α) (f : α → Prog K V C E β) : p >>= f = p.bind f := rfl

end Prog

namespace World

def log (w : World K V P C E) (e : Entry P C E) : World K V P C E := { w with hist := e :: w.hist }

@[simp] theorem log_store (w : World K V P C E) (e : Entry P C E) : (w.log e).store = w.store := rfl

variable [DecidableEq K]

def read (w : World K V P C E) (k : K) : Got V :=
  match w.store.lookup k with
  | some v => .found v
  | none => .notFound

def write (w : World K V P C E) (k : K) (v : V) : World K V P C E :=
  { w with store := w.store.insert k v }

@[simp] theorem write_store (w : World K V P C E) (k : K) (v : V) :
    (w.write k v).store = w.store.insert k v := rfl

variable [LT K] [DecidableLT K]

/-- The content in key order, as an iterator over a snapshot delivers it. -/
def listing (w : World K V P C E) : List (K × V) :=
  (w.store.entries.map fun e => (e.1, e.2)).insertionSort fun a b => ¬ b.1 < a.1

omit [LT K] [DecidableLT K] in
theorem mem_entries {w : World K V P C E} {k : K} {v : V} :
    (k, v) ∈ w.store.entries.map (fun e => (e.1, e.2)) ↔ w.store.lookup k = some v := by
  rw [← Option.mem_def, AList.mem_lookup_iff]
  constructor
  · intro h
    obtain ⟨⟨a, b⟩, hm, he⟩ := List.mem_map.mp h
    obtain ⟨rfl, rfl⟩ := Prod.mk.inj he
    exact hm
  · intro h
    exact List.mem_map.mpr ⟨⟨k, v⟩, h, rfl⟩

theorem mem_listing {w : World K V P C E} {k : K} {v : V} :
    (k, v) ∈ w.listing ↔ w.store.lookup k = some v := by
  rw [listing, List.mem_insertionSort, mem_entries]

omit [DecidableEq K] in
theorem listing_keys_nodup (w : World K V P C E) : (w.listing.map Prod.fst).Nodup := by
  have hp := (List.perm_insertionSort (fun a b : K × V => ¬ b.1 < a.1)
    (w.store.entries.map fun e => (e.1, e.2))).map Prod.fst
  refine hp.nodup_iff.mpr ?_
  rw [List.map_map]
  exact w.store.nodupKeys

theorem listing_pairwise {K : Type} [LinearOrder K] (w : World K V P C E) :
    w.listing.Pairwise fun a b => a.1 ≤ b.1 := by
  have ht : Std.Total fun a b : K × V => ¬ b.1 < a.1 :=
    ⟨fun a b => (le_total a.1 b.1).imp not_lt_of_ge not_lt_of_ge⟩
  have hr : IsTrans (K × V) fun a b => ¬ b.1 < a.1 :=
    ⟨fun a b c hab hbc => not_lt.mpr ((not_lt.mp hab).trans (not_lt.mp hbc))⟩
  have h := List.pairwise_insertionSort (fun a b : K × V => ¬ b.1 < a.1)
    (w.store.entries.map fun e => (e.1, e.2))
  exact h.imp fun h => not_lt.mp h

end World

section Run

variable [DecidableEq K] [LT K] [DecidableLT K] (self : P)

/-- One run. A missing fate means that the call succeeds; a missing reading, or a loop that has
used up its fuel, leaves the program `running`. The process may be lost before every call. -/
def Prog.run : Prog K V C E α → List Fate → List C → World K V P C E →
    Outcome α × World K V P C E
  | .ret a, _, _, w => (.done a, w)
  | .get k next, fs, cs, w =>
    match fs.headD .ok with
    | .ok => (next (w.read k)).run fs.tail cs w
    | .fail => (next .error).run fs.tail cs (w.log (.dbError self))
    | .crash => (.died, w.log (.crash self))
  | .put k v next, fs, cs, w =>
    match fs.headD .ok with
    | .ok => (next true).run fs.tail cs (w.write k v)
    | .fail => (next false).run fs.tail cs (w.log (.dbError self))
    | .crash => (.died, w.log (.crash self))
  | .scan next, fs, cs, w => (next w.listing).run fs cs w
  | .clock next, fs, cs, w =>
    match cs with
    | [] => if fs.headD .ok = .crash then (.died, w.log (.crash self)) else (.running, w)
    | c :: cs => (next c).run fs cs (w.log (.clock self c))
  | .tell e next, fs, cs, w => next.run fs cs (w.log (.note e))
  | .abort, _, _, w => (.died, w.log (.crash self))
  | .spin, _, _, w => (.running, w)

/-- The weakest precondition for the postcondition `Q` on completion and `R` on the loss of the
process, over all histories that satisfy `A`. -/
def Prog.wp (A : List (Entry P C E) → Prop) (Q : α → World K V P C E → Prop)
    (R : World K V P C E → Prop) : Prog K V C E α → World K V P C E → Prop
  | .ret a, w => Q a w
  | .get k next, w =>
    (A (.crash self :: w.hist) → R (w.log (.crash self))) ∧
    (A (.dbError self :: w.hist) → (next .error).wp A Q R (w.log (.dbError self))) ∧
    (next (w.read k)).wp A Q R w
  | .put k v next, w =>
    (A (.crash self :: w.hist) → R (w.log (.crash self))) ∧
    (A (.dbError self :: w.hist) → (next false).wp A Q R (w.log (.dbError self))) ∧
    (next true).wp A Q R (w.write k v)
  | .scan next, w => (next w.listing).wp A Q R w
  | .clock next, w =>
    (A (.crash self :: w.hist) → R (w.log (.crash self))) ∧
    ∀ c, A (.clock self c :: w.hist) → (next c).wp A Q R (w.log (.clock self c))
  | .tell e next, w => A (.note e :: w.hist) → next.wp A Q R (w.log (.note e))
  | .abort, w => A (.crash self :: w.hist) → R (w.log (.crash self))
  | .spin, _ => True

variable {self} {A : List (Entry P C E) → Prop} {Q Q' : α → World K V P C E → Prop}
  {R R' : World K V P C E → Prop}

theorem Prog.hist_suffix (p : Prog K V C E α) (fs : List Fate) (cs : List C)
    (w : World K V P C E) : w.hist <:+ (p.run self fs cs w).2.hist := by
  induction p generalizing fs cs w with
  | ret a => exact List.suffix_refl _
  | get k next ih =>
    simp only [run]
    split
    · exact ih _ _ _ _
    · exact (List.suffix_cons _ _).trans (ih _ _ _ (w.log _))
    · exact List.suffix_cons _ _
  | put k v next ih =>
    simp only [run]
    split
    · exact ih _ _ _ (w.write k v)
    · exact (List.suffix_cons _ _).trans (ih _ _ _ (w.log _))
    · exact List.suffix_cons _ _
  | scan next ih => exact ih _ _ _ _
  | clock next ih =>
    cases cs with
    | nil =>
      simp only [run]
      split
      · exact List.suffix_cons _ _
      · exact List.suffix_refl _
    | cons c cs => exact (List.suffix_cons _ _).trans (ih _ _ _ (w.log _))
  | tell e next ih => exact (List.suffix_cons _ _).trans (ih _ _ (w.log _))
  | abort => exact List.suffix_cons _ _
  | spin => exact List.suffix_refl _

def Outcome.Sat (Q : α → World K V P C E → Prop) (R : World K V P C E → Prop) :
    Outcome α × World K V P C E → Prop
  | (.done a, w) => Q a w
  | (.died, w) => R w
  | (.running, _) => True

omit [DecidableEq K] [LT K] [DecidableLT K] in
theorem Outcome.Sat.mono (hQ : ∀ a w, Q a w → Q' a w) (hR : ∀ w, R w → R' w)
    {o : Outcome α × World K V P C E} (h : Outcome.Sat Q R o) : Outcome.Sat Q' R' o := by
  rcases o with ⟨_ | _ | _, w⟩
  · exact hQ _ _ h
  · exact hR _ h
  · trivial

omit [DecidableEq K] [LT K] [DecidableLT K] in
theorem Outcome.Sat.and {o : Outcome α × World K V P C E} (h : Outcome.Sat Q R o)
    (h' : Outcome.Sat Q' R' o) :
    Outcome.Sat (fun a w => Q a w ∧ Q' a w) (fun w => R w ∧ R' w) o := by
  rcases o with ⟨_ | _ | _, w⟩
  · exact ⟨h, h'⟩
  · exact ⟨h, h'⟩
  · trivial

omit [DecidableEq K] [LT K] [DecidableLT K] in
theorem Outcome.sat_of_done {o : Outcome α × World K V P C E}
    (h : ∀ a w, o = (.done a, w) → Q a w) : Outcome.Sat Q (fun _ => True) o := by
  rcases o with ⟨a | _ | _, w⟩
  · exact h a w rfl
  · trivial
  · trivial

/-- Soundness of `wp`: an assumption that survives the removal of the newest entries and holds of
the history at the end held all along. -/
theorem Prog.sat_of_wp (hA : ∀ l m, l <:+ m → A m → A l) {p : Prog K V C E α} {fs : List Fate}
    {cs : List C} {w : World K V P C E} (hw : p.wp self A Q R w)
    (ha : A (p.run self fs cs w).2.hist) : Outcome.Sat Q R (p.run self fs cs w) := by
  induction p generalizing fs cs w with
  | ret a => exact hw
  | get k next ih =>
    obtain ⟨hc, he, ho⟩ := hw
    simp only [run] at ha ⊢
    split at ha
    · exact ih _ ho ha
    · exact ih _ (he (hA _ _ (hist_suffix _ _ _ (w.log _)) ha)) ha
    · exact hc ha
  | put k v next ih =>
    obtain ⟨hc, he, ho⟩ := hw
    simp only [run] at ha ⊢
    split at ha
    · exact ih _ ho ha
    · exact ih _ (he (hA _ _ (hist_suffix _ _ _ (w.log _)) ha)) ha
    · exact hc ha
  | scan next ih => exact ih _ hw ha
  | clock next ih =>
    cases cs with
    | nil =>
      simp only [run] at ha ⊢
      split_ifs at ha ⊢
      · exact hw.1 ha
      · trivial
    | cons c cs => exact ih _ (hw.2 c (hA _ _ (hist_suffix (next c) fs cs (w.log _)) ha)) ha
  | tell e next ih => exact ih (hw (hA _ _ (hist_suffix next fs cs (w.log _)) ha)) ha
  | abort => exact hw ha
  | spin => trivial

theorem Prog.wp_bind {p : Prog K V C E β} {f : β → Prog K V C E α} {w : World K V P C E} :
    (p.bind f).wp self A Q R w ↔ p.wp self A (fun b => (f b).wp self A Q R) R w := by
  induction p generalizing w with
  | ret a => rfl
  | get k next ih => simp only [bind, wp, ih]
  | put k v next ih => simp only [bind, wp, ih]
  | scan next ih => simp only [bind, wp, ih]
  | clock next ih => simp only [bind, wp, ih]
  | tell e next ih => simp only [bind, wp, ih]
  | abort => rfl
  | spin => rfl

theorem Prog.wp_ite {c : Prop} [Decidable c] {p q : Prog K V C E α} {w : World K V P C E} :
    (if c then p else q).wp self A Q R w ↔ (c → p.wp self A Q R w) ∧ (¬ c → q.wp self A Q R w) := by
  split_ifs with h <;> simp [h]

theorem Prog.wp_mono (hQ : ∀ a w, Q a w → Q' a w) (hR : ∀ w, R w → R' w)
    {p : Prog K V C E α} {w : World K V P C E} (h : p.wp self A Q R w) : p.wp self A Q' R' w := by
  induction p generalizing w with
  | ret a => exact hQ _ _ h
  | get k next ih =>
    exact ⟨fun a => hR _ (h.1 a), fun a => ih _ (h.2.1 a), ih _ h.2.2⟩
  | put k v next ih =>
    exact ⟨fun a => hR _ (h.1 a), fun a => ih _ (h.2.1 a), ih _ h.2.2⟩
  | scan next ih => exact ih _ h
  | clock next ih => exact ⟨fun a => hR _ (h.1 a), fun c a => ih _ (h.2 c a)⟩
  | tell e next ih => exact fun a => ih (h a)
  | abort => exact fun a => hR _ (h a)
  | spin => trivial

theorem Prog.wp_and {p : Prog K V C E α} {w : World K V P C E} (h : p.wp self A Q R w)
    (h' : p.wp self A Q' R' w) :
    p.wp self A (fun a w => Q a w ∧ Q' a w) (fun w => R w ∧ R' w) w := by
  induction p generalizing w with
  | ret a => exact ⟨h, h'⟩
  | get k next ih =>
    exact ⟨fun a => ⟨h.1 a, h'.1 a⟩, fun a => ih _ (h.2.1 a) (h'.2.1 a), ih _ h.2.2 h'.2.2⟩
  | put k v next ih =>
    exact ⟨fun a => ⟨h.1 a, h'.1 a⟩, fun a => ih _ (h.2.1 a) (h'.2.1 a), ih _ h.2.2 h'.2.2⟩
  | scan next ih => exact ih _ h h'
  | clock next ih =>
    exact ⟨fun a => ⟨h.1 a, h'.1 a⟩, fun c a => ih _ (h.2 c a) (h'.2 c a)⟩
  | tell e next ih => exact fun a => ih (h a) (h' a)
  | abort => exact fun a => ⟨h a, h' a⟩
  | spin => trivial

omit [DecidableEq K] [LT K] [DecidableLT K] in
theorem Prog.bind_assoc {γ : Type} (p : Prog K V C E γ) (f : γ → Prog K V C E β)
    (g : β → Prog K V C E α) : (p.bind f).bind g = p.bind fun c => (f c).bind g := by
  induction p with
  | ret a => rfl
  | get k next ih => simp only [bind, ih]
  | put k v next ih => simp only [bind, ih]
  | scan next ih => simp only [bind, ih]
  | clock next ih => simp only [bind, ih]
  | tell e next ih => simp only [bind, ih]
  | abort => rfl
  | spin => rfl

omit [DecidableEq K] [LT K] [DecidableLT K] in
theorem Prog.bind_ret (p : Prog K V C E α) : (p.bind fun a => ret a) = p := by
  induction p with
  | ret a => rfl
  | get k next ih => simp only [bind, ih]
  | put k v next ih => simp only [bind, ih]
  | scan next ih => simp only [bind, ih]
  | clock next ih => simp only [bind, ih]
  | tell e next ih => simp only [bind, ih]
  | abort => rfl
  | spin => rfl

def Prog.left (self : P) : Prog K V C E α → List Fate → List C → World K V P C E →
    List Fate × List C
  | .ret _, fs, cs, _ => (fs, cs)
  | .get k next, fs, cs, w =>
    match fs.headD .ok with
    | .ok => (next (w.read k)).left self fs.tail cs w
    | .fail => (next .error).left self fs.tail cs (w.log (.dbError self))
    | .crash => (fs, cs)
  | .put k v next, fs, cs, w =>
    match fs.headD .ok with
    | .ok => (next true).left self fs.tail cs (w.write k v)
    | .fail => (next false).left self fs.tail cs (w.log (.dbError self))
    | .crash => (fs, cs)
  | .scan next, fs, cs, w => (next w.listing).left self fs cs w
  | .clock next, fs, cs, w =>
    match cs with
    | [] => (fs, [])
    | c :: cs => (next c).left self fs cs (w.log (.clock self c))
  | .tell e next, fs, cs, w => next.left self fs cs (w.log (.note e))
  | .abort, fs, cs, _ => (fs, cs)
  | .spin, fs, cs, _ => (fs, cs)

theorem Prog.run_bind (p : Prog K V C E β) (f : β → Prog K V C E α) (fs : List Fate) (cs : List C)
    (w : World K V P C E) :
    (p.bind f).run self fs cs w =
      match p.run self fs cs w with
      | (.done b, w') => (f b).run self (p.left self fs cs w).1 (p.left self fs cs w).2 w'
      | (.died, w') => (.died, w')
      | (.running, w') => (.running, w') := by
  induction p generalizing fs cs w with
  | ret b => rfl
  | get k next ih =>
    simp only [bind, run, left]
    split
    · exact ih _ _ _ _
    · exact ih _ _ _ _
    · rfl
  | put k v next ih =>
    simp only [bind, run, left]
    split
    · exact ih _ _ _ _
    · exact ih _ _ _ _
    · rfl
  | scan next ih => exact ih _ _ _ _
  | clock next ih =>
    cases cs with
    | nil =>
      simp only [bind, run]
      split_ifs
      · rfl
      · rfl
    | cons c cs => exact ih _ _ _ _
  | tell e next ih => exact ih _ _ _
  | abort => rfl
  | spin => rfl

theorem Prog.run_bind_done {p : Prog K V C E β} {f : β → Prog K V C E α} {fs : List Fate}
    {cs : List C} {w w' : World K V P C E} {a : α}
    (h : (p.bind f).run self fs cs w = (.done a, w')) :
    ∃ b w₁, p.run self fs cs w = (.done b, w₁) ∧
      (f b).run self (p.left self fs cs w).1 (p.left self fs cs w).2 w₁ = (.done a, w') := by
  rw [run_bind] at h
  split at h
  · rename_i b w₁ hp
    exact ⟨b, w₁, hp, h⟩
  · cases h
  · cases h

def Outcome.map (f : β → α) : Outcome β → Outcome α
  | done b => done (f b)
  | died => died
  | running => running

theorem Prog.run_bind_ret (p : Prog K V C E β) (f : β → α) (fs : List Fate) (cs : List C)
    (w : World K V P C E) :
    (p.bind fun b => ret (f b)).run self fs cs w =
      ((p.run self fs cs w).1.map f, (p.run self fs cs w).2) := by
  rw [run_bind]
  split
  · rename_i h
    rw [h]
    rfl
  · rename_i h
    rw [h]
    rfl
  · rename_i h
    rw [h]
    rfl

def Prog.Ends : Prog K V C E α → Prop
  | .ret _ => True
  | .get _ next => ∀ r, (next r).Ends
  | .put _ _ next => ∀ b, (next b).Ends
  | .scan next => ∀ l, (next l).Ends
  | .clock _ => False
  | .tell _ next => next.Ends
  | .abort => True
  | .spin => False

theorem Prog.Ends.run_ne_running {p : Prog K V C E α} (hp : p.Ends) (fs : List Fate) (cs : List C)
    (w : World K V P C E) : (p.run self fs cs w).1 ≠ .running := by
  induction p generalizing fs w with
  | ret a => simp [run]
  | get k next ih =>
    simp only [run]
    split
    · exact ih _ (hp _) _ _
    · exact ih _ (hp _) _ _
    · simp
  | put k v next ih =>
    simp only [run]
    split
    · exact ih _ (hp _) _ _
    · exact ih _ (hp _) _ _
    · simp
  | scan next ih => exact ih _ (hp _) _ _
  | clock next ih => exact hp.elim
  | tell e next ih => exact ih hp _ _
  | abort => simp [run]
  | spin => exact hp.elim

theorem Prog.sat_of_wp_get (hA : ∀ l m, l <:+ m → A m → A l) {k : K}
    {next : Got V → Prog K V C E α} {fs : List Fate} {cs : List C} {w : World K V P C E}
    (hf : fs.head? ≠ some .fail) (hR : A (.crash self :: w.hist) → R (w.log (.crash self)))
    (hw : (next (w.read k)).wp self A Q R w) (ha : A ((get k next).run self fs cs w).2.hist) :
    Outcome.Sat Q R ((get k next).run self fs cs w) := by
  cases fs with
  | nil => exact sat_of_wp hA (p := next (w.read k)) hw ha
  | cons f fs =>
    cases f with
    | ok => exact sat_of_wp hA (p := next (w.read k)) hw ha
    | fail => exact absurd rfl hf
    | crash => exact hR ha

/-- A run in which no write fails, every look at the clock is answered and the process is not lost
from outside; reads may fail if `F` holds. -/
def Prog.Calm (self : P) (F : Prop) : Prog K V C E α → List Fate → List C → World K V P C E → Prop
  | .ret _, _, _, _ => True
  | .get k next, fs, cs, w =>
    match fs.headD .ok with
    | .ok => (next (w.read k)).Calm self F fs.tail cs w
    | .fail => F ∧ (next .error).Calm self F fs.tail cs (w.log (.dbError self))
    | .crash => False
  | .put k v next, fs, cs, w =>
    match fs.headD .ok with
    | .ok => (next true).Calm self F fs.tail cs (w.write k v)
    | _ => False
  | .scan next, fs, cs, w => (next w.listing).Calm self F fs cs w
  | .clock next, fs, cs, w =>
    match cs with
    | [] => False
    | c :: cs => (next c).Calm self F fs cs (w.log (.clock self c))
  | .tell e next, fs, cs, w => next.Calm self F fs cs (w.log (.note e))
  | .abort, _, _, _ => True
  | .spin, _, _, _ => True

theorem Prog.calm_bind {F : Prop} (p : Prog K V C E β) (f : β → Prog K V C E α) (fs : List Fate)
    (cs : List C) (w : World K V P C E) :
    (p.bind f).Calm self F fs cs w ↔
      p.Calm self F fs cs w ∧ ∀ b w', p.run self fs cs w = (.done b, w') →
        (f b).Calm self F (p.left self fs cs w).1 (p.left self fs cs w).2 w' := by
  induction p generalizing fs cs w with
  | ret b =>
    refine ⟨fun h => ⟨trivial, ?_⟩, fun h => h.2 b w rfl⟩
    rintro b' w' hrun
    obtain ⟨hb, rfl⟩ := Prod.mk.inj hrun
    obtain rfl := Outcome.done.inj hb
    exact h
  | get k next ih =>
    simp only [bind, Calm, run, left]
    split
    · exact ih _ _ _ _
    · rw [ih, and_assoc]
    · exact iff_of_false id fun h => h.1
  | put k v next ih =>
    simp only [bind, Calm, run, left]
    cases fs.headD .ok with
    | ok => exact ih _ _ _ _
    | fail => exact iff_of_false id fun h => h.1
    | crash => exact iff_of_false id fun h => h.1
  | scan next ih => exact ih _ _ _ _
  | clock next ih =>
    cases cs with
    | nil => exact iff_of_false id fun h => h.1
    | cons c cs => exact ih _ _ _ _
  | tell e next ih => exact ih _ _ _
  | abort => exact iff_of_true trivial ⟨trivial, fun _ _ h => nomatch h⟩
  | spin => exact iff_of_true trivial ⟨trivial, fun _ _ h => nomatch h⟩

instance Prog.decidableCalm {F : Prop} [Decidable F] :
    ∀ (p : Prog K V C E α) (fs : List Fate) (cs : List C) (w : World K V P C E),
      Decidable (p.Calm self F fs cs w)
  | .ret _, _, _, _ => .isTrue trivial
  | .get k next, fs, cs, w =>
    match h : fs.headD .ok with
    | .ok =>
      have := decidableCalm (F := F) (next (w.read k)) fs.tail cs w
      decidable_of_iff ((next (w.read k)).Calm self F fs.tail cs w) (by simp only [Calm, h])
    | .fail =>
      have := decidableCalm (F := F) (next .error) fs.tail cs (w.log (.dbError self))
      decidable_of_iff (F ∧ (next .error).Calm self F fs.tail cs (w.log (.dbError self)))
        (by simp only [Calm, h])
    | .crash => .isFalse (by simp only [Calm, h, not_false_eq_true])
  | .put k v next, fs, cs, w =>
    match h : fs.headD .ok with
    | .ok =>
      have := decidableCalm (F := F) (next true) fs.tail cs (w.write k v)
      decidable_of_iff ((next true).Calm self F fs.tail cs (w.write k v)) (by simp only [Calm, h])
    | .fail | .crash => .isFalse (by simp only [Calm, h, not_false_eq_true])
  | .scan next, fs, cs, w => decidableCalm (F := F) (next w.listing) fs cs w
  | .clock _, _, [], _ => .isFalse id
  | .clock next, fs, c :: cs, w => decidableCalm (F := F) (next c) fs cs (w.log (.clock self c))
  | .tell e next, fs, cs, w => decidableCalm (F := F) next fs cs (w.log (.note e))
  | .abort, _, _, _ => .isTrue trivial
  | .spin, _, _, _ => .isTrue trivial

def Entry.By (self : P) (N : E → Prop) : Entry P C E → Prop
  | clock p _ => p = self
  | dbError p => p = self
  | crash p => p = self
  | note e => N e

def Prog.Tells (N : E → Prop) : Prog K V C E α → Prop
  | .ret _ => True
  | .get _ next => ∀ r, (next r).Tells N
  | .put _ _ next => ∀ b, (next b).Tells N
  | .scan next => ∀ l, (next l).Tells N
  | .clock next => ∀ c, (next c).Tells N
  | .tell e next => N e ∧ next.Tells N
  | .abort => True
  | .spin => True

omit [DecidableEq K] [LT K] [DecidableLT K] in
theorem Prog.tells_bind {N : E → Prop} {p : Prog K V C E β} {f : β → Prog K V C E α}
    (hp : p.Tells N) (hf : ∀ b, (f b).Tells N) : (p.bind f).Tells N := by
  induction p with
  | ret a => exact hf a
  | get k next ih => exact fun r => ih r (hp r)
  | put k v next ih => exact fun b => ih b (hp b)
  | scan next ih => exact fun l => ih l (hp l)
  | clock next ih => exact fun c => ih c (hp c)
  | tell e next ih => exact ⟨hp.1, ih hp.2⟩
  | abort => trivial
  | spin => trivial

def Grown (self : P) (N : E → Prop) (l l' : List (Entry P C E)) : Prop :=
  ∃ new, l' = new ++ l ∧ ∀ e ∈ new, e.By self N

section Grown

omit [DecidableEq K] [LT K] [DecidableLT K]

variable {N N' : E → Prop} {l l' l'' : List (Entry P C E)}

theorem Grown.refl (self : P) (N : E → Prop) (l : List (Entry P C E)) : Grown self N l l :=
  ⟨[], rfl, by simp⟩

theorem Grown.trans (h : Grown self N l l') (h' : Grown self N l' l'') : Grown self N l l'' := by
  obtain ⟨new, rfl, hn⟩ := h
  obtain ⟨new', rfl, hn'⟩ := h'
  refine ⟨new' ++ new, (List.append_assoc _ _ _).symm, fun e he => ?_⟩
  rcases List.mem_append.mp he with he | he
  · exact hn' e he
  · exact hn e he

theorem Grown.cons {e : Entry P C E} (h : Grown self N l l') (he : e.By self N) :
    Grown self N l (e :: l') := h.trans ⟨[e], rfl, by simpa using he⟩

theorem Grown.suffix (h : Grown self N l l') : l <:+ l' := by
  obtain ⟨new, rfl, -⟩ := h
  exact List.suffix_append new l

theorem Grown.mono (hN : ∀ e, N e → N' e) (h : Grown self N l l') : Grown self N' l l' := by
  obtain ⟨new, hl, hn⟩ := h
  refine ⟨new, hl, fun e he => ?_⟩
  have hb := hn e he
  cases e with
  | note e => exact hN e hb
  | clock p c => exact hb
  | dbError p => exact hb
  | crash p => exact hb

theorem Grown.old_note (h : Grown self N l l') {e : E} (he : ¬ N e) (hm : .note e ∈ l') :
    .note e ∈ l := by
  obtain ⟨new, rfl, hn⟩ := h
  rcases List.mem_append.mp hm with hm | hm
  · exact absurd (hn _ hm) he
  · exact hm

end Grown

theorem Prog.wp_grown {N : E → Prop} {p : Prog K V C E α} (hp : p.Tells N)
    {l : List (Entry P C E)} {w : World K V P C E} (hl : Grown self N l w.hist) :
    p.wp self A (fun _ w => Grown self N l w.hist) (fun w => Grown self N l w.hist) w := by
  induction p generalizing w with
  | ret a => exact hl
  | get k next ih =>
    exact ⟨fun _ => hl.cons rfl, fun _ => ih _ (hp _) (hl.cons rfl), ih _ (hp _) hl⟩
  | put k v next ih =>
    exact ⟨fun _ => hl.cons rfl, fun _ => ih _ (hp _) (hl.cons rfl), ih _ (hp _) hl⟩
  | scan next ih => exact ih _ (hp _) hl
  | clock next ih => exact ⟨fun _ => hl.cons rfl, fun _ _ => ih _ (hp _) (hl.cons rfl)⟩
  | tell e next ih => exact fun _ => ih hp.2 (hl.cons hp.1)
  | abort => exact fun _ => hl.cons rfl
  | spin => trivial

omit [DecidableEq K] [LT K] [DecidableLT K] in
/-- Whatever the history is, the outcome, the store and the entries that are added are the same. -/
def Blind (self : P) (N : E → Prop) (f : List (Entry P C E) → Outcome α × World K V P C E) : Prop :=
  ∃ o st new, (∀ e ∈ new, e.By self N) ∧ ∀ l, f l = (o, ⟨st, new ++ l⟩)

omit [DecidableEq K] [LT K] [DecidableLT K] in
theorem Blind.cons {N : E → Prop} {f : List (Entry P C E) → Outcome α × World K V P C E}
    (h : Blind self N f) {e : Entry P C E} (he : e.By self N) : Blind self N fun l => f (e :: l) := by
  obtain ⟨o, st, new, hnew, hf⟩ := h
  refine ⟨o, st, new ++ [e], fun e' he' => ?_, fun l => ?_⟩
  · rcases List.mem_append.mp he' with h | h
    · exact hnew e' h
    · exact List.mem_singleton.mp h ▸ he
  · change f (e :: l) = _
    rw [hf, List.append_assoc]
    rfl

omit [DecidableEq K] [LT K] [DecidableLT K] in
theorem Blind.const {N : E → Prop} (o : Outcome α) (st : Store K V) :
    Blind self N fun l : List (Entry P C E) => (o, ⟨st, l⟩) := ⟨o, st, [], by simp, fun _ => rfl⟩

/-- A program does not read the history: it adds the same entries to every one. -/
theorem Prog.blind {N : E → Prop} {p : Prog K V C E α} (hp : p.Tells N) (fs : List Fate)
    (cs : List C) (st : Store K V) : Blind self N fun l => p.run self fs cs ⟨st, l⟩ := by
  have died (st : Store K V) : Blind self N fun l : List (Entry P C E) =>
      ((.died, ⟨st, .crash self :: l⟩) : Outcome α × World K V P C E) := (Blind.const .died st).cons rfl
  induction p generalizing fs cs st with
  | ret a => exact .const _ st
  | get k next ih =>
    simp only [run]
    cases fs.headD .ok with
    | ok => exact ih ((⟨st, []⟩ : World K V P C E).read k) (hp _) fs.tail cs st
    | fail => exact (ih _ (hp _) fs.tail cs st).cons rfl
    | crash => exact died st
  | put k v next ih =>
    simp only [run]
    cases fs.headD .ok with
    | ok => exact ih _ (hp _) fs.tail cs (st.insert k v)
    | fail => exact (ih _ (hp _) fs.tail cs st).cons rfl
    | crash => exact died st
  | scan next ih => exact ih (⟨st, []⟩ : World K V P C E).listing (hp _) fs cs st
  | clock next ih =>
    cases cs with
    | nil =>
      simp only [run]
      split_ifs
      · exact died st
      · exact .const _ st
    | cons c cs => exact (ih _ (hp _) fs cs st).cons rfl
  | tell e next ih => exact (ih hp.2 fs cs st).cons hp.1
  | abort => exact died st
  | spin => exact .const _ st

/-- Every key that a program writes satisfies `D`, every result satisfies `S`. -/
def Prog.Only (D : K → Prop) (S : α → Prop) : Prog K V C E α → Prop
  | .ret a => S a
  | .get _ next => ∀ r, (next r).Only D S
  | .put k _ next => D k ∧ ∀ b, (next b).Only D S
  | .scan next => ∀ l, (next l).Only D S
  | .clock next => ∀ c, (next c).Only D S
  | .tell _ next => next.Only D S
  | .abort => True
  | .spin => True

omit [DecidableEq K] [LT K] [DecidableLT K] in
theorem Prog.only_bind {D : K → Prop} {S : β → Prop} {S' : α → Prop} {p : Prog K V C E β}
    {f : β → Prog K V C E α} (hp : p.Only D S) (hf : ∀ b, S b → (f b).Only D S') :
    (p.bind f).Only D S' := by
  induction p with
  | ret a => exact hf a hp
  | get k next ih => exact fun r => ih r (hp r)
  | put k v next ih => exact ⟨hp.1, fun b => ih b (hp.2 b)⟩
  | scan next ih => exact fun l => ih l (hp l)
  | clock next ih => exact fun c => ih c (hp c)
  | tell e next ih => exact ih hp
  | abort => trivial
  | spin => trivial

/-- The frame rule: the keys that a program does not write keep their values. -/
theorem Prog.wp_only {D : K → Prop} {S : α → Prop} {p : Prog K V C E α} (hp : p.Only D S)
    {st : Store K V} {w : World K V P C E}
    (hw : ∀ k, ¬ D k → w.store.lookup k = st.lookup k) :
    p.wp self A (fun a w => S a ∧ ∀ k, ¬ D k → w.store.lookup k = st.lookup k)
      (fun w => ∀ k, ¬ D k → w.store.lookup k = st.lookup k) w := by
  induction p generalizing w with
  | ret a => exact ⟨hp, hw⟩
  | get k next ih => exact ⟨fun _ => hw, fun _ => ih _ (hp _) hw, ih _ (hp _) hw⟩
  | put k v next ih =>
    refine ⟨fun _ => hw, fun _ => ih _ (hp.2 _) hw, ih _ (hp.2 _) fun k' hk' => ?_⟩
    have hne : k' ≠ k := fun e => hk' (e ▸ hp.1)
    rw [World.write_store, AList.lookup_insert_ne hne]
    exact hw k' hk'
  | scan next ih => exact ih _ (hp _) hw
  | clock next ih => exact ⟨fun _ => hw, fun _ _ => ih _ (hp _) hw⟩
  | tell e next ih => exact fun _ => ih hp hw
  | abort => exact fun _ => hw
  | spin => trivial

end Run

end Durable
