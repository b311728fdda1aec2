import Milp.Proofs.Instance.Passes

/-!
# A new seed makes a source forget

Whatever has been done to a source, it still has the files that were listed, in some order
(`Source.Lists`). Paths are in a linear order, so there is only one way to sort them. Hence a source
that is seeded is the one that is opened on the same files with the engine of the seed
(`Source.reseed_performAll`), and nothing that it answers afterwards tells how the files were
listed, which engine it had or what was picked before (`Source.reseed_forgets`).
-/

namespace Milp

/-! ### The order of paths -/

namespace InstancePath

/-- Paths are compared name by name. -/
theorem cons_atMost_cons {a b : String} {p q : InstancePath} :
    atMost (a :: p) (b :: q) = true ↔ a < b ∨ a = b ∧ p.atMost q = true := by
  rw [atMost, Bool.or_eq_true, Bool.and_eq_true, decide_eq_true_eq, decide_eq_true_eq]

/-- Nothing comes before the top of the tree. -/
theorem eq_nil_of_atMost_nil {p : InstancePath} (h : p.atMost [] = true) : p = [] := by
  cases p with
  | nil => rfl
  | cons a p => cases h

/-- Of two paths one is at most the other. -/
theorem atMost_total (p q : InstancePath) : (p.atMost q || q.atMost p) = true := by
  rw [Bool.or_eq_true]
  induction p generalizing q with
  | nil => exact .inl rfl
  | cons a p ih =>
    cases q with
    | nil => exact .inr rfl
    | cons b q =>
      rw [cons_atMost_cons, cons_atMost_cons]
      have order : a < b ∨ a = b ∨ b < a := Std.Trichotomous.rel_or_eq_or_rel_swap
      rcases order with below | rfl | above
      · exact .inl (.inl below)
      · exact (ih q).imp (fun le => .inr ⟨rfl, le⟩) fun le => .inr ⟨rfl, le⟩
      · exact .inr (.inl above)

/-- The order of paths is transitive. -/
theorem atMost_trans (p q r : InstancePath) (pq : p.atMost q = true) (qr : q.atMost r = true) :
    p.atMost r = true := by
  induction p generalizing q r with
  | nil => rfl
  | cons a p ih =>
    cases q with
    | nil => cases pq
    | cons b q =>
      cases r with
      | nil => cases qr
      | cons c r =>
        rw [cons_atMost_cons] at pq qr ⊢
        rcases pq with ab | ⟨rfl, pq⟩
        · rcases qr with bc | ⟨rfl, -⟩
          · exact .inl (String.lt_trans ab bc)
          · exact .inl ab
        · exact qr.imp_right fun ⟨same, qr⟩ => ⟨same, ih q r pq qr⟩

/-- Two paths that are at most each other are the same. -/
theorem atMost_antisymm (p q : InstancePath) (pq : p.atMost q = true) (qp : q.atMost p = true) :
    p = q := by
  induction p generalizing q with
  | nil => exact (eq_nil_of_atMost_nil qp).symm
  | cons a p ih =>
    cases q with
    | nil => exact eq_nil_of_atMost_nil pq
    | cons b q =>
      rw [cons_atMost_cons] at pq qp
      rcases pq with ab | ⟨rfl, pq⟩
      · rcases qp with ba | ⟨rfl, -⟩
        · exact absurd ba (String.lt_asymm ab)
        · exact absurd ab (String.lt_irrefl b)
      · rcases qp with aa | ⟨-, qp⟩
        · exact absurd aa (String.lt_irrefl a)
        · rw [ih q pq qp]

end InstancePath

namespace Source

/-- The sorted files do not depend on the order in which the files are given. -/
theorem sorted_eq_of_perm {files files' : List InstancePath} (same : files.Perm files') :
    sorted files = sorted files' := by
  have inOrder (l : List InstancePath) :
      (l.mergeSort InstancePath.atMost).Pairwise fun p q => p.atMost q = true :=
    List.pairwise_mergeSort InstancePath.atMost_trans InstancePath.atMost_total l
  have perm : (files.mergeSort InstancePath.atMost).Perm (files'.mergeSort InstancePath.atMost) :=
    (List.mergeSort_perm files _).trans (same.trans (List.mergeSort_perm files' _).symm)
  exact congrArg List.toArray <| perm.eq_of_pairwise
    (fun p q _ _ => InstancePath.atMost_antisymm p q) (inOrder files) (inOrder files')

/-- Nor does the source of the files. -/
theorem ofFiles_eq_of_perm {files files' : List InstancePath} (same : files.Perm files')
    (mode : PickMode) (engine : Random.Engine) :
    ofFiles files mode engine = ofFiles files' mode engine := by
  rw [ofFiles, ofFiles, sorted_eq_of_perm same, same.length_eq]

/-! ### What a source answers -/

/-- What a source can be asked: for its next file, or whether it is done. -/
inductive Question where
  | path
  | done

/-- What a source answers. -/
inductive Reply where
  | path (outcome : Except (InstanceError Float) InstancePath)
  | done (answer : Bool)

/-- The answer to a question, and the source after it. -/
def ask (s : Source) : Question → Reply × Source
  | .path => (.path s.pick.1, s.pick.2)
  | .done => (.done s.isDone, s)

/-- The answers to questions one after the other. -/
def replies (s : Source) : List Question → List Reply
  | [] => []
  | q :: qs => (s.ask q).1 :: (s.ask q).2.replies qs

/-- A source that is seeded after whatever calls is the one that is opened on its files with the
engine of the seed. -/
theorem reseed_performAll (files : List InstancePath) (mode : PickMode) (engine : Random.Engine)
    (history : List Call) (seed : UInt64) :
    ((ofFiles files mode engine).performAll history).reseed seed =
      ofFiles files mode (.ofSeed seed) := by
  have opened : (ofFiles files mode engine).Lists files := .ofFiles (.refl _) mode engine
  have kept := opened.performAll history
  rw [reseed, ofFiles_eq_of_perm kept.perm, mode_performAll opened]
  rfl

/-- Two sources over the same files that pick in the same way are alike after both are seeded with
the same number, in whatever order their files were listed, whatever engines they had and whatever
was done to them: they answer all further questions alike, namely as a source that is opened on
the files with the engine of the seed. -/
theorem reseed_forgets {files files' : List InstancePath} (same : files.Perm files')
    (mode : PickMode) (engine engine' : Random.Engine) (history history' : List Call)
    (seed : UInt64) :
    let s := ((ofFiles files mode engine).performAll history).reseed seed
    let s' := ((ofFiles files' mode engine').performAll history').reseed seed
    s = s' ∧ ∀ questions,
      s.replies questions = s'.replies questions ∧
        s.replies questions = (ofFiles files mode (.ofSeed seed)).replies questions := by
  intro s s'
  have fresh : s = ofFiles files mode (.ofSeed seed) :=
    reseed_performAll files mode engine history seed
  have fresh' : s' = ofFiles files' mode (.ofSeed seed) :=
    reseed_performAll files' mode engine' history' seed
  have alike : s = s' := by
    rw [fresh, fresh', ofFiles_eq_of_perm same]
  exact ⟨alike, fun questions =>
    ⟨congrArg (replies · questions) alike, congrArg (replies · questions) fresh⟩⟩

/-- A source in the middle of a pass and an exhausted one go on alike. -/
theorem trio_forgets :
    [["a"], ["b"], ["c"]].Perm [["c"], ["a"], ["b"]] ∧
      (((ofFiles [["a"], ["b"], ["c"]] .once (.ofSeed 1)).performAll
          [.pick, .reseed 4, .pick]).reseed 9).replies [.path, .done, .path, .path, .done] =
        (((ofFiles [["c"], ["a"], ["b"]] .once (.ofSeed 2)).performAll
          [.pick, .pick, .pick, .pick]).reseed 9).replies [.path, .done, .path, .path, .done] := by
  have same : [["a"], ["b"], ["c"]].Perm [["c"], ["a"], ["b"]] := by decide
  obtain ⟨-, alike⟩ := reseed_forgets same .once (.ofSeed 1) (.ofSeed 2) [.pick, .reseed 4, .pick]
    [.pick, .pick, .pick, .pick] 9
  exact ⟨same, (alike _).1⟩

end Source
end Milp
