import Milp.Instance.Source
import Milp.Proofs.Random.Order
import Milp.Proofs.Random.Range

/-!
# Passes through the files of a source

A source that does not pick anew goes through its files in passes. What it picks in a pass stands
behind the files that are still to come, the last pick in front (`Source.Passes.behind`), for every
pick is swapped to the border between the two. So a pass that is complete has picked the files as
they are listed, in some order (`Source.passes_permute`), whatever the engine draws, whatever
becomes of reading the files, and also if the source is seeded in the middle of a pass.
-/

namespace Milp

/-- The source of a directory has the files that are listed. -/
theorem Source.ofDirectory_eq_ok {d : Directory} {recursive : Bool} {listing : List InstancePath}
    (listed : d.paths recursive = .ok listing) (mode : PickMode) (engine : Random.Engine) :
    Source.ofDirectory d recursive mode engine = .ok (.ofFiles listing mode engine) := by
  rw [ofDirectory, listed]
  rfl

/-! ### Swapping to the border -/

/-- What is swapped to the last of the first places stands in front of those behind them, which stay
as they are. -/
theorem drop_swapIfInBounds {α : Type} (xs : Array α) {i border : Nat} (within : i ≤ border)
    (inside : border < xs.size) :
    (xs.swapIfInBounds i border).toList.drop border =
      xs[i] :: xs.toList.drop (border + 1) := by
  rw [Array.swapIfInBounds_def, dif_pos (by omega), dif_pos inside, Array.toList_swap]
  rw [List.drop_eq_getElem_cons (by simpa using inside), List.getElem_set_self,
    List.drop_set_of_lt (Nat.lt_succ_self border), List.drop_set_of_lt (by omega)]

namespace Source

variable {s : Source} {listing : List InstancePath}

/-! ### One pick -/

/-- The source after it has picked the file at a position. -/
def picked (s : Source) (i : Nat) (engine : Random.Engine) : Source :=
  if s.mode = .anew then { s with remaining := s.choices, engine }
  else
    { s with
      files := s.files.swapIfInBounds i (s.choices - 1)
      remaining := s.choices - 1
      engine }

/-- Whether the border between the files to come and those picked lies within the files. -/
def Bordered (s : Source) : Prop := s.remaining ≤ s.files.size

/-- Unless nothing is left, a pick chooses from some of the files. -/
theorem Bordered.choices (h : s.Bordered) (left : s.isDone = false) :
    0 < s.choices ∧ s.choices ≤ s.files.size := by
  have some : s.files.size ≠ 0 := by
    intro none
    simp [isDone, Array.isEmpty, none] at left
  unfold Source.choices
  have bound : s.remaining ≤ s.files.size := h
  split <;> omega

/-- Either nothing is left, and a pick changes nothing, or the engine draws the position of a file
among those that the pick chooses from. -/
theorem pick_cases (h : s.Bordered) :
    s.isDone = true ∧ s.pick = (.error .exhausted, s) ∨
      s.isDone = false ∧ ∃ i engine, ∃ inside : i < s.files.size,
        s.engine.below s.choices = (i, engine) ∧ i < s.choices ∧ s.choices ≤ s.files.size ∧
          s.pick = (.ok s.files[i], s.picked i engine) := by
  cases left : s.isDone with
  | true => exact .inl ⟨rfl, by rw [pick, if_pos left]⟩
  | false =>
    obtain ⟨pos, within⟩ := h.choices left
    obtain ⟨i, engine, drawn⟩ : ∃ i engine, s.engine.below s.choices = (i, engine) := ⟨_, _, rfl⟩
    have early : i < s.choices := by
      simpa [drawn] using Random.Engine.below_lt pos s.engine
    have inside : i < s.files.size := early.trans_le within
    have found : s.files.getD i [] = s.files[i] := by
      rw [Array.getD_eq_getD_getElem?, Array.getElem?_eq_getElem inside]
      rfl
    refine .inr ⟨rfl, i, engine, inside, drawn, early, within, ?_⟩
    rw [pick, if_neg (by simp [left])]
    unfold picked
    cases mode : s.mode <;> simp only [drawn, found] <;> rfl

/-- What comes of the next problem is what comes of reading the file that is picked; the source goes
on as after the pick. -/
theorem next_eq (s : Source) (d : Directory) :
    s.next d = (match s.pick.1 with
      | .error e => Attempt.fail e
      | .ok path => (d.problem path).mapError fun cause => .loading (d.nameOf path) (.load cause),
      s.pick.2) := by
  unfold next
  split
  next eq => rw [eq]
  next eq => rw [eq]

/-! ### Calls -/

/-- What can be done to a source. The file of the next problem is read from its directory as it is
then. -/
inductive Call where
  | pick
  | next (d : Directory)
  | reseed (seed : UInt64)

/-- Whether the call seeds the source. -/
def Call.isReseed : Call → Bool
  | .reseed _ => true
  | _ => false

/-- The source after a call. -/
def perform (s : Source) : Call → Source
  | .pick => s.pick.2
  | .next d => (s.next d).2
  | .reseed seed => s.reseed seed

/-- The source after calls one after the other. -/
def performAll (s : Source) (calls : List Call) : Source := calls.foldl perform s

/-- The file that a call picks, whether it can be read or not, if there is one left. -/
def pickOf? (s : Source) : Call → Option InstancePath
  | .reseed _ => none
  | _ => s.pick.1.toOption

/-- The files that calls pick one after the other. -/
def picks (s : Source) : List Call → List InstancePath
  | [] => []
  | call :: calls => (s.pickOf? call).toList ++ (s.perform call).picks calls

/-- A call that does not seed the source picks a file. -/
theorem perform_eq {call : Call} (unseeded : call.isReseed = false) :
    s.perform call = s.pick.2 ∧ s.pickOf? call = s.pick.1.toOption := by
  cases call with
  | pick => exact ⟨rfl, rfl⟩
  | next d => exact ⟨by rw [perform, next_eq], rfl⟩
  | reseed => cases unseeded

/-- A source that has just been opened, or seeded after whatever calls. -/
inductive Opens (start : Source) : Source → Prop where
  | start : Opens start start
  | reseed (before : List Call) (seed : UInt64) :
    Opens start ((start.performAll before).reseed seed)

/-! ### The files of a source -/

/-- Whether a source has the files of a listing. -/
structure Lists (listing : List InstancePath) (s : Source) : Prop where
  perm : s.files.toList.Perm listing
  bordered : s.Bordered

namespace Lists

/-- There are as many files as are listed. -/
theorem size_eq (h : s.Lists listing) : s.files.size = listing.length := by
  rw [← Array.length_toList, h.perm.length_eq]

/-- At first a source has the files that it is given. -/
theorem ofFiles {files : List InstancePath} (perm : files.Perm listing) (mode : PickMode)
    (engine : Random.Engine) : (Source.ofFiles files mode engine).Lists listing where
  perm := by simpa [Source.ofFiles, sorted] using (List.mergeSort_perm files _).trans perm
  bordered := by simp [Source.ofFiles, Bordered, sorted]

/-- A file that is picked stays one of the files. -/
theorem picked (h : s.Lists listing) {i : Nat} (within : s.choices ≤ s.files.size)
    (engine : Random.Engine) : (s.picked i engine).Lists listing := by
  unfold Source.picked
  split
  · exact ⟨h.perm, within⟩
  · refine ⟨(perm_swapIfInBounds _ _ _).trans h.perm, ?_⟩
    show s.choices - 1 ≤ (s.files.swapIfInBounds i (s.choices - 1)).size
    rw [Array.size_swapIfInBounds]
    omega

/-- A source keeps its files, whatever is done to it. -/
theorem perform (h : s.Lists listing) (call : Call) : (s.perform call).Lists listing := by
  cases seeded : call.isReseed with
  | true =>
    cases call with
    | reseed seed => exact .ofFiles h.perm _ _
    | _ => cases seeded
  | false =>
    rw [(perform_eq seeded).1]
    obtain ⟨-, eq⟩ | ⟨-, i, engine, _, -, -, within, eq⟩ := pick_cases h.bordered
    · rw [eq]
      exact h
    · rw [eq]
      exact h.picked within engine

/-- So it does for any number of calls. -/
theorem performAll (h : s.Lists listing) (calls : List Call) :
    (s.performAll calls).Lists listing := by
  induction calls generalizing s with
  | nil => exact h
  | cons call calls ih => exact ih (h.perform call)

end Lists

/-- A source goes on picking in its way. -/
theorem mode_picked (i : Nat) (engine : Random.Engine) : (s.picked i engine).mode = s.mode := by
  unfold picked
  split <;> rfl

/-! ### Passes -/

/-- Whether a source has gone through the passes `full` of a listing and has picked `current` in the
pass that it is in now. -/
structure Passes (listing : List InstancePath) (full : List (List InstancePath))
    (current : List InstancePath) (s : Source) : Prop where
  lists : s.Lists listing
  whole : ∀ pass ∈ full, pass.Perm listing
  behind : s.files.toList.drop s.remaining = current.reverse

variable {full : List (List InstancePath)} {current : List InstancePath}

namespace Passes

/-- At first there are no picks. -/
theorem ofFiles {files : List InstancePath} (perm : files.Perm listing) (mode : PickMode)
    (engine : Random.Engine) : (Source.ofFiles files mode engine).Passes listing [] [] where
  lists := .ofFiles perm mode engine
  whole := fun _ none => absurd none List.not_mem_nil
  behind := by simp [Source.ofFiles, sorted]

/-- A pass in which nothing is left to pick has picked the files as they are listed. -/
theorem complete (h : s.Passes listing full current) (none : s.remaining = 0) :
    current.Perm listing := by
  have all := h.behind
  rw [none, List.drop_zero] at all
  exact (List.reverse_perm current).symm.trans (all ▸ h.lists.perm)

/-- What is picked is picked in the pass that the source is in, or it opens the next one. -/
theorem picked (h : s.Passes listing full current) (again : s.mode ≠ .anew) {i : Nat}
    (inside : i < s.files.size) (early : i < s.choices) (within : s.choices ≤ s.files.size)
    (engine : Random.Engine) :
    ∃ full' current', (s.picked i engine).Passes listing full' current' ∧
      full'.flatten ++ current' = full.flatten ++ current ++ [s.files[i]] := by
  have lists := h.lists.picked (i := i) within engine
  obtain ⟨border, border_eq⟩ : ∃ border, s.choices = border + 1 := ⟨s.choices - 1, by omega⟩
  have swapped : (s.picked i engine).files.toList.drop (s.picked i engine).remaining =
      s.files[i] :: s.files.toList.drop s.choices := by
    have at_most : i ≤ border := by omega
    have border_inside : border < s.files.size := by omega
    rw [Source.picked, if_neg again, border_eq]
    exact drop_swapIfInBounds s.files at_most border_inside
  by_cases none : s.remaining = 0
  · refine ⟨full ++ [current], [s.files[i]], ⟨lists, ?_, ?_⟩, by simp⟩
    · intro pass among
      rcases List.mem_append.mp among with earlier | last
      · exact h.whole pass earlier
      · rw [List.mem_singleton.mp last]
        exact h.complete none
    · have all : s.choices = s.files.toList.length := by
        rw [Source.choices, if_pos none, Array.length_toList]
      rw [swapped, all, List.drop_length]
      rfl
  · refine ⟨full, current ++ [s.files[i]], ⟨lists, h.whole, ?_⟩, by simp⟩
    have rest : s.choices = s.remaining := if_neg none
    rw [swapped, rest, h.behind, List.reverse_append]
    rfl

/-- Calls that do not seed the source go on with its passes. -/
theorem performAll (h : s.Passes listing full current) (again : s.mode ≠ .anew) {calls : List Call}
    (unseeded : ∀ call ∈ calls, call.isReseed = false) :
    ∃ full' current', (s.performAll calls).Passes listing full' current' ∧
      full'.flatten ++ current' = full.flatten ++ current ++ s.picks calls := by
  induction calls generalizing s full current with
  | nil => exact ⟨full, current, h, (List.append_nil _).symm⟩
  | cons call calls ih =>
    obtain ⟨after, picked⟩ := perform_eq (s := s) (unseeded call List.mem_cons_self)
    have later : ∀ call ∈ calls, call.isReseed = false := fun call among =>
      unseeded call (List.mem_cons_of_mem _ among)
    show ∃ full' current', ((s.perform call).performAll calls).Passes listing full' current' ∧
      full'.flatten ++ current' =
        full.flatten ++ current ++ ((s.pickOf? call).toList ++ (s.perform call).picks calls)
    rw [after, picked]
    obtain ⟨-, eq⟩ | ⟨-, i, engine, inside, -, early, within, eq⟩ := pick_cases h.lists.bordered
    · rw [eq]
      exact ih h again later
    · obtain ⟨full₁, current₁, h₁, grown⟩ := h.picked again inside early within engine
      obtain ⟨full₂, current₂, h₂, all⟩ := ih h₁ (by rwa [mode_picked]) later
      rw [eq]
      exact ⟨full₂, current₂, h₂, by rw [all, grown, List.append_assoc]; rfl⟩

end Passes

/-- Of lists one after the other that each reorder a listing, with a last one that does so if it is
long enough, every complete section reorders it. -/
theorem perm_section (whole : ∀ pass ∈ full, pass.Perm listing)
    (last : listing.length ≤ current.length → current.Perm listing) (p : Nat)
    (complete : (p + 1) * listing.length ≤ (full.flatten ++ current).length) :
    (((full.flatten ++ current).drop (p * listing.length)).take listing.length).Perm listing := by
  induction full generalizing p with
  | nil =>
    rw [List.flatten_nil, List.nil_append] at complete ⊢
    have long : listing.length ≤ current.length :=
      (Nat.le_mul_of_pos_left _ p.succ_pos).trans complete
    have length_eq := (last long).length_eq
    -- A second section behind the last list is complete only if nothing is listed.
    have start : p * listing.length = 0 := by
      rw [Nat.succ_mul] at complete
      omega
    rw [start, List.drop_zero, ← length_eq, List.take_length]
    exact last long
  | cons pass full ih =>
    have length_eq : pass.length = listing.length := (whole pass List.mem_cons_self).length_eq
    rw [List.flatten_cons, List.append_assoc, ← length_eq] at complete ⊢
    cases p with
    | zero =>
      rw [Nat.zero_mul, List.drop_zero, List.take_left]
      exact whole pass List.mem_cons_self
    | succ p =>
      rw [Nat.succ_mul, Nat.add_comm, ← List.drop_drop, List.drop_left, length_eq]
      refine ih (fun pass among => whole pass (List.mem_cons_of_mem _ among)) p ?_
      rw [List.length_append, Nat.succ_mul] at complete
      rw [← length_eq]
      omega

/-! ### The number of picks -/

/-- A source that goes through its files once picks as long as there are files left. -/
theorem picks_once (h : s.Bordered) (once : s.mode = .once) {calls : List Call}
    (unseeded : ∀ call ∈ calls, call.isReseed = false) :
    (s.picks calls).length = min calls.length s.remaining ∧
      (s.performAll calls).remaining = s.remaining - calls.length ∧
      (s.performAll calls).mode = .once := by
  induction calls generalizing s with
  | nil => exact ⟨by simp [picks], rfl, once⟩
  | cons call calls ih =>
    obtain ⟨after, picked⟩ := perform_eq (s := s) (unseeded call List.mem_cons_self)
    have later : ∀ call ∈ calls, call.isReseed = false := fun call among =>
      unseeded call (List.mem_cons_of_mem _ among)
    show ((s.pickOf? call).toList ++ (s.perform call).picks calls).length = _ ∧
      ((s.perform call).performAll calls).remaining = _ ∧
        ((s.perform call).performAll calls).mode = _
    rw [after, picked, List.length_append, List.length_cons]
    obtain ⟨none, eq⟩ | ⟨left, i, engine, _, -, -, within, eq⟩ := pick_cases h
    · have empty : s.remaining = 0 := by
        have bound : s.remaining ≤ s.files.size := h
        rw [isDone, once] at none
        rcases (Bool.or_eq_true _ _).mp none with no | no
        · rw [Array.isEmpty_iff.mp no] at bound
          exact Nat.le_zero.mp bound
        · simpa using no
      obtain ⟨length_eq, remaining_eq, mode_eq⟩ := ih h once later
      rw [eq]
      simp only [Except.toOption, Option.toList_none, List.length_nil]
      exact ⟨by omega, by omega, mode_eq⟩
    · have some : s.remaining ≠ 0 := by
        intro none
        simp [isDone, once, none] at left
      have fewer : (s.picked i engine).remaining = s.remaining - 1 := by
        have rest : s.choices = s.remaining := if_neg some
        rw [Source.picked, if_neg (by simp [once]), rest]
      have bordered : (s.picked i engine).Bordered :=
        (Lists.picked ⟨.refl _, h⟩ within engine).bordered
      obtain ⟨length_eq, remaining_eq, mode_eq⟩ := ih bordered (by rw [mode_picked, once]) later
      rw [fewer] at length_eq remaining_eq
      rw [eq]
      simp only [Except.toOption, Option.toList_some, List.length_singleton]
      exact ⟨by omega, by omega, mode_eq⟩

/-- A source with files that goes through them again and again always picks. -/
theorem picks_passes (h : s.Lists listing) (nonempty : listing ≠ []) (passes : s.mode = .passes)
    {calls : List Call} (unseeded : ∀ call ∈ calls, call.isReseed = false) :
    (s.picks calls).length = calls.length := by
  induction calls generalizing s with
  | nil => rfl
  | cons call calls ih =>
    obtain ⟨after, picked⟩ := perform_eq (s := s) (unseeded call List.mem_cons_self)
    have later : ∀ call ∈ calls, call.isReseed = false := fun call among =>
      unseeded call (List.mem_cons_of_mem _ among)
    show ((s.pickOf? call).toList ++ (s.perform call).picks calls).length = _
    rw [after, picked, List.length_append, List.length_cons]
    obtain ⟨none, -⟩ | ⟨-, i, engine, _, -, -, within, eq⟩ := pick_cases h.bordered
    · have empty : s.files.size = 0 := by simpa [isDone, passes] using none
      rw [h.size_eq] at empty
      exact absurd (List.length_eq_zero_iff.mp empty) nonempty
    · have length_eq := ih (h.picked (i := i) within engine) (by rw [mode_picked, passes]) later
      rw [eq, length_eq]
      exact Nat.add_comm 1 _

/-! ### Complete passes -/

/-- A source keeps the way in which it picks, whatever is done to it. -/
theorem mode_performAll (h : s.Lists listing) (calls : List Call) :
    (s.performAll calls).mode = s.mode := by
  induction calls generalizing s with
  | nil => rfl
  | cons call calls ih =>
    refine (ih (h.perform call)).trans ?_
    cases seeded : call.isReseed with
    | true =>
      cases call with
      | reseed seed => rfl
      | _ => cases seeded
    | false =>
      rw [(perform_eq seeded).1]
      obtain ⟨-, eq⟩ | ⟨-, i, engine, _, -, -, -, eq⟩ := pick_cases h.bordered
      · rw [eq]
      · rw [eq]
        exact mode_picked i engine

/-- A source that has just been opened or seeded is at the start of a pass. -/
theorem Opens.passes {files : List InstancePath} {mode : PickMode} {engine : Random.Engine}
    (opened : (Source.ofFiles files mode engine).Opens s) :
    s.Passes files [] [] ∧ s.remaining = files.length ∧ s.mode = mode := by
  have start : (Source.ofFiles files mode engine).Lists files := .ofFiles (.refl _) mode engine
  cases opened with
  | start => exact ⟨.ofFiles (.refl _) mode engine, rfl, rfl⟩
  | reseed before seed =>
    have kept := start.performAll before
    exact ⟨.ofFiles kept.perm _ _, kept.perm.length_eq, mode_performAll start before⟩

/-- A source of listed files has these files and no others, in some order, whatever is done to it;
it is done exactly if a pick fails, which changes nothing, and otherwise it picks one of its files,
and goes on in the same way if that file cannot be read. Unless it picks anew every time, what it
picks after it was opened or seeded falls into passes, and every pass that is complete has picked
the files as they are listed, in some order. If it goes through them once, it picks as many as are
listed, and if again and again, no pick fails. -/
theorem passes_permute (d : Directory) (recursive : Bool) (mode : PickMode) (engine : Random.Engine)
    {listing : List InstancePath} (listed : d.paths recursive = .ok listing)
    (nonempty : listing ≠ []) :
    ∃ start, ofDirectory d recursive mode engine = .ok start ∧
      (∀ calls, let s := start.performAll calls
        s.files.toList.Perm listing ∧ s.remaining ≤ listing.length ∧
        (s.isDone = true ↔ ∃ e, s.pick.1 = .error e) ∧
        (s.isDone = true →
          s.pick = (.error .exhausted, s) ∧ ∀ d', s.next d' = (Attempt.fail .exhausted, s)) ∧
        (s.isDone = false → ∃ i engine', ∃ inside : i < s.files.size,
          s.engine.below s.choices = (i, engine') ∧ i < s.choices ∧ s.choices ≤ s.files.size ∧
          s.pick.1 = .ok s.files[i] ∧
          ∀ d', s.next d' = ((d'.problem s.files[i]).mapError fun cause =>
            .loading (d'.nameOf s.files[i]) (.load cause), s.pick.2))) ∧
      (mode ≠ .anew → ∀ s, start.Opens s → ∀ calls, (∀ call ∈ calls, call.isReseed = false) →
        (∀ p, (p + 1) * listing.length ≤ (s.picks calls).length →
          (((s.picks calls).drop (p * listing.length)).take listing.length).Perm listing) ∧
        (mode = .once → (s.picks calls).length = min calls.length listing.length ∧
          (listing.length ≤ calls.length → (s.performAll calls).isDone = true)) ∧
        (mode = .passes → (s.picks calls).length = calls.length)) := by
  refine ⟨_, ofDirectory_eq_ok listed mode engine, fun calls => ?_, ?_⟩
  · intro s
    have lists : s.Lists listing := (Lists.ofFiles (.refl _) mode engine).performAll calls
    refine ⟨lists.perm, lists.bordered.trans_eq lists.size_eq, ?_⟩
    obtain ⟨none, eq⟩ | ⟨left, i, engine', inside, drawn, early, within, eq⟩ :=
      pick_cases lists.bordered
    · refine ⟨iff_of_true none ⟨_, congrArg Prod.fst eq⟩, fun _ => ⟨eq, fun d' => ?_⟩, ?_⟩
      · rw [next_eq, eq]
      · rw [none]
        exact nofun
    · have picks : s.pick.1 = .ok s.files[i] := congrArg Prod.fst eq
      refine ⟨iff_of_false (by simp [left]) ?_, ?_, fun _ =>
        ⟨i, engine', inside, drawn, early, within, picks, fun d' => ?_⟩⟩
      · rintro ⟨e, failed⟩
        cases picks.symm.trans failed
      · rw [left]
        exact nofun
      · rw [next_eq, picks]
  · intro again s opened calls unseeded
    obtain ⟨passes, remaining_eq, mode_eq⟩ := opened.passes
    refine ⟨fun p complete => ?_, ?_, ?_⟩
    · obtain ⟨full, current, after, all⟩ := passes.performAll (by rwa [mode_eq]) unseeded
      simp only [List.flatten_nil, List.nil_append] at all
      rw [← all] at complete ⊢
      refine perm_section after.whole (fun long => ?_) p complete
      -- As many picks as there are files leave nothing in front of the border.
      have behind := congrArg List.length after.behind
      rw [List.length_drop, Array.length_toList, List.length_reverse, after.lists.size_eq] at behind
      have bound := after.lists.bordered.trans_eq after.lists.size_eq
      have some := List.length_pos_iff.mpr nonempty
      exact after.complete (by omega)
    · rintro rfl
      obtain ⟨length_eq, left_eq, still⟩ := picks_once passes.lists.bordered mode_eq unseeded
      rw [remaining_eq] at length_eq left_eq
      refine ⟨length_eq, fun enough => ?_⟩
      simp [isDone, still, left_eq, enough]
    · rintro rfl
      exact picks_passes passes.lists nonempty mode_eq unseeded

/-- A directory of three files, one of which is no problem. -/
def trio : Directory where
  top := "trio"
  files := [(["a"], "end"), (["b"], "sideways"), (["c"], "end")]

/-- Six picks from three files are two passes. -/
theorem trio_passes :
    trio.paths false = .ok [["a"], ["b"], ["c"]] ∧ [["a"], ["b"], ["c"]] ≠ [] ∧
      ∃ start, ofDirectory trio false .passes (.ofSeed 7) = .ok start ∧
        let picks := start.picks [.next trio, .pick, .next trio, .pick, .next trio, .pick]
        picks.length = 6 ∧ (picks.take 3).Perm [["a"], ["b"], ["c"]] ∧
          ((picks.drop 3).take 3).Perm [["a"], ["b"], ["c"]] := by
  have listed : trio.paths false = .ok [["a"], ["b"], ["c"]] := rfl
  obtain ⟨start, opened, -, run⟩ :=
    passes_permute trio false .passes (.ofSeed 7) listed (List.cons_ne_nil _ _)
  obtain ⟨complete, -, all⟩ := run (by decide) start .start
    [.next trio, .pick, .next trio, .pick, .next trio, .pick] (by decide)
  have six := all rfl
  exact ⟨listed, List.cons_ne_nil _ _, start, opened, six, complete 0 (six.symm ▸ by decide),
    complete 1 (six.symm ▸ by decide)⟩

end Source
end Milp
