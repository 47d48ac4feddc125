import Mathlib.Algebra.Order.Monoid.Defs
import Mathlib.Data.List.Basic
import Mathlib.Tactic.Linarith

/-!
Events counted in fixed windows. A window is opened by an event that finds no
window running and runs for a fixed length from that event's stamp; an event is
checked against the running window no later than it is stamped. Windows of one
sequence of events do not overlap, so a stretch no longer than a window meets at
most two of them, and a bound for every window is half a bound for the stretch.
-/
namespace ContextLedger.FixedWindows

/-- The first event opens the window; the later ones stand newest first. -/
structure Window (α : Type*) where
  first : α
  later : List α

variable {α T : Type*}

def Window.members (w : Window α) : List α := w.later ++ [w.first]

/-- A relation between elements that are not neighbours. -/
def PairwiseSkip {β : Type*} (r : β → β → Prop) : List β → Prop
  | a :: b :: rest => (∀ c ∈ rest, r a c) ∧ PairwiseSkip r (b :: rest)
  | _ => True

theorem pairwiseSkip_of_pairwise {β : Type*} {r s : β → β → Prop} {l : List β}
    (h : l.Pairwise s)
    (hcomp : ∀ a ∈ l, ∀ b ∈ l, ∀ c ∈ l, s a b → s b c → r a c) : PairwiseSkip r l := by
  induction l with
  | nil => trivial
  | cons a rest ih =>
    cases rest with
    | nil => trivial
    | cons b rest =>
      obtain ⟨hfirst, hrest⟩ := List.pairwise_cons.mp h
      obtain ⟨hsecond, -⟩ := List.pairwise_cons.mp hrest
      constructor
      · intro c hc
        have hmem : c ∈ b :: rest := List.mem_cons_of_mem b hc
        exact hcomp a List.mem_cons_self b (List.mem_cons_of_mem a List.mem_cons_self) c
          (List.mem_cons_of_mem a hmem) (hfirst b List.mem_cons_self) (hsecond c hc)
      · exact ih hrest fun x hx y hy z hz =>
          hcomp x (List.mem_cons_of_mem a hx) y (List.mem_cons_of_mem a hy) z
            (List.mem_cons_of_mem a hz)

theorem pairwiseSkip_of_imp {β : Type*} {r s : β → β → Prop} (himp : ∀ a b, s a b → r a b) :
    ∀ {l : List β}, PairwiseSkip s l → PairwiseSkip r l
  | [], _ => trivial
  | [_], _ => trivial
  | a :: _ :: _, h => ⟨fun c hc => himp a c (h.1 c hc), pairwiseSkip_of_imp himp h.2⟩

/-- Where only neighbouring groups can both hold counted elements, two groups hold
them all. -/
theorem countP_flatMap_le_two_mul {β : Type*} {members : β → List α} {p : α → Bool} {n : ℕ}
    {groups : List β} (hbound : ∀ g ∈ groups, (members g).countP p ≤ n)
    (hskip : PairwiseSkip (fun g h => ∀ a ∈ members g, ∀ b ∈ members h, p a = true → p b = false)
      groups) : (groups.flatMap members).countP p ≤ 2 * n := by
  induction groups with
  | nil => exact Nat.zero_le _
  | cons g groups ih =>
    have hg := hbound g List.mem_cons_self
    cases groups with
    | nil =>
      rw [List.flatMap_cons, List.flatMap_nil, List.append_nil]
      omega
    | cons h rest =>
      rw [List.flatMap_cons, List.countP_append]
      by_cases hmeets : ∃ a ∈ members g, p a = true
      · obtain ⟨a, ha, hpa⟩ := hmeets
        have hnone : (rest.flatMap members).countP p = 0 := by
          refine List.countP_eq_zero.mpr ?_
          intro b hb
          obtain ⟨k, hk, hbk⟩ := List.mem_flatMap.mp hb
          rw [hskip.1 k hk a ha b hbk hpa]
          exact Bool.false_ne_true
        have hh := hbound h (List.mem_cons_of_mem g List.mem_cons_self)
        rw [List.flatMap_cons, List.countP_append, hnone]
        omega
      · have hzero : (members g).countP p = 0 := by
          refine List.countP_eq_zero.mpr ?_
          intro a ha hpa
          exact hmeets ⟨a, ha, hpa⟩
        have hrest := ih (fun k hk => hbound k (List.mem_cons_of_mem g hk)) hskip.2
        rw [hzero]
        omega

theorem Window.first_mem (w : Window α) : w.first ∈ w.members :=
  List.mem_append_right _ List.mem_cons_self

section

variable [LinearOrder T] [AddCommMonoid T] (checked stamped : α → T) (length : T)

def add (a : α) : List (Window α) → List (Window α)
  | [] => [⟨a, []⟩]
  | w :: older =>
    if checked a < stamped w.first + length then ⟨w.first, a :: w.later⟩ :: older
    else ⟨a, []⟩ :: w :: older

/-- Events and windows both stand newest first. -/
def windows : List α → List (Window α)
  | [] => []
  | a :: earlier => add checked stamped length a (windows earlier)

/-- One event after the other, listed newest first. -/
def Sequential (events : List α) : Prop :=
  (∀ a ∈ events, checked a ≤ stamped a) ∧
    events.Pairwise fun newer older => stamped older ≤ checked newer

variable {checked stamped length}

theorem flatMap_members_add (a : α) (ws : List (Window α)) :
    (add checked stamped length a ws).flatMap Window.members = a :: ws.flatMap Window.members := by
  cases ws with
  | nil => rfl
  | cons w older =>
    rw [add]
    split_ifs with hopen
    · rfl
    · rfl

/-- The windows hold the events, each once and in order. -/
theorem flatMap_members (checked stamped : α → T) (length : T) (events : List α) :
    (windows checked stamped length events).flatMap Window.members = events := by
  induction events with
  | nil => rfl
  | cons a earlier ih => rw [windows, flatMap_members_add, ih]

theorem mem_of_mem_windows {events : List α} {w : Window α} {a : α}
    (hw : w ∈ windows checked stamped length events) (ha : a ∈ w.members) : a ∈ events := by
  rw [← flatMap_members checked stamped length events]
  exact List.mem_flatMap.mpr ⟨w, hw, ha⟩

omit [AddCommMonoid T] in
theorem Sequential.earlier {a : α} {events : List α}
    (h : Sequential checked stamped (a :: events)) : Sequential checked stamped events :=
  ⟨fun b hb => h.1 b (List.mem_cons_of_mem a hb), (List.pairwise_cons.mp h.2).2⟩

omit [AddCommMonoid T] in
theorem Sequential.filter (p : α → Bool) {events : List α}
    (h : Sequential checked stamped events) : Sequential checked stamped (events.filter p) :=
  ⟨fun b hb => h.1 b (List.mem_of_mem_filter hb), h.2.filter p⟩

omit [AddCommMonoid T] in
theorem Sequential.cons {a : α} {events : List α} (h : Sequential checked stamped events)
    (ha : checked a ≤ stamped a) (hlast : ∀ b ∈ events, stamped b ≤ checked a) :
    Sequential checked stamped (a :: events) := by
  refine ⟨?_, List.pairwise_cons.mpr ⟨hlast, h.2⟩⟩
  intro b hb
  rcases List.mem_cons.mp hb with rfl | hb
  · exact ha
  · exact h.1 b hb

theorem Sequential.pairwise_windows {events : List α} (h : Sequential checked stamped events) :
    (windows checked stamped length events).Pairwise fun newer older =>
      ∀ a ∈ newer.members, ∀ b ∈ older.members, stamped b ≤ checked a := by
  have hpairs := h.2
  rw [← flatMap_members checked stamped length events,
    List.pairwise_flatMap] at hpairs
  exact hpairs.2

/-- No event of a window is stamped before the one that opened it. -/
theorem Sequential.first_le {events : List α} (h : Sequential checked stamped events)
    {w : Window α} {a : α} (hw : w ∈ windows checked stamped length events)
    (ha : a ∈ w.members) : stamped w.first ≤ stamped a := by
  have hpairs := h.2
  rw [← flatMap_members checked stamped length events,
    List.pairwise_flatMap] at hpairs
  rcases List.mem_append.mp ha with hlater | hfirst
  · have horder := (List.pairwise_append.mp (hpairs.1 w hw)).2.2 a hlater w.first
      List.mem_cons_self
    exact horder.trans (h.1 a (mem_of_mem_windows hw ha))
  · rw [List.mem_singleton.mp hfirst]

/-- A window starts only when the ones before it have run out. -/
theorem Sequential.windows_apart {events : List α} (h : Sequential checked stamped events) :
    (windows checked stamped length events).Pairwise fun newer older =>
      stamped older.first + length ≤ checked newer.first := by
  induction events with
  | nil => exact List.Pairwise.nil
  | cons a earlier ih =>
    have hrest := ih h.earlier
    have hmem : ∀ w ∈ windows checked stamped length earlier, w.first ∈ earlier :=
      fun w hw => mem_of_mem_windows hw w.first_mem
    rw [windows]
    cases hws : windows checked stamped length earlier with
    | nil => exact List.pairwise_singleton _ _
    | cons w older =>
      rw [hws] at hrest hmem
      obtain ⟨hnewest, holder⟩ := List.pairwise_cons.mp hrest
      rw [add]
      split_ifs with hopen
      · exact List.pairwise_cons.mpr ⟨hnewest, holder⟩
      · refine List.pairwise_cons.mpr ⟨?_, hrest⟩
        have hw : stamped w.first + length ≤ checked a := not_lt.mp hopen
        intro v hv
        rcases List.mem_cons.mp hv with rfl | hv
        · exact hw
        · have hfirst : w.first ∈ earlier := hmem w List.mem_cons_self
          calc stamped v.first + length ≤ checked w.first := hnewest v hv
            _ ≤ stamped w.first := h.earlier.1 w.first hfirst
            _ ≤ checked a := (List.pairwise_cons.mp h.2).1 w.first hfirst

variable [IsOrderedAddMonoid T]

/-- Windows with one between them are a full length apart. -/
theorem Sequential.windows_skip {events : List α} (h : Sequential checked stamped events) :
    PairwiseSkip (fun newer older : Window α =>
      ∀ a ∈ newer.members, ∀ b ∈ older.members, stamped b + length ≤ stamped a)
      (windows checked stamped length events) := by
  refine pairwiseSkip_of_pairwise (List.Pairwise.and h.windows_apart h.pairwise_windows) ?_
  rintro newer hnewer middle hmiddle older - ⟨hstart, -⟩ ⟨-, horder⟩ a ha b hb
  have hchecked : ∀ {w : Window α}, w ∈ windows checked stamped length events →
      checked w.first ≤ stamped w.first :=
    fun hw => h.1 _ (mem_of_mem_windows hw (Window.first_mem _))
  have hb : stamped b ≤ stamped middle.first :=
    (horder middle.first middle.first_mem b hb).trans (hchecked hmiddle)
  calc stamped b + length ≤ stamped middle.first + length := by gcongr
    _ ≤ checked newer.first := hstart
    _ ≤ stamped newer.first := hchecked hnewer
    _ ≤ stamped a := h.first_le hnewer ha

/-- Events less than a length apart lie in two windows at most. -/
theorem Sequential.countP_le_two_mul {events : List α} (h : Sequential checked stamped events)
    {p : α → Bool} {n : ℕ}
    (hbound : ∀ w ∈ windows checked stamped length events, w.members.countP p ≤ n)
    (hshort : ∀ a b, p a = true → p b = true → stamped a < stamped b + length) :
    events.countP p ≤ 2 * n := by
  rw [← flatMap_members checked stamped length events]
  refine countP_flatMap_le_two_mul hbound ?_
  refine pairwiseSkip_of_imp ?_ h.windows_skip
  intro newer older hfar a ha b hb hpa
  by_contra hpb
  exact absurd (hfar a ha b hb) (not_le.mpr (hshort a b hpa (by simpa using hpb)))

end

end ContextLedger.FixedWindows
