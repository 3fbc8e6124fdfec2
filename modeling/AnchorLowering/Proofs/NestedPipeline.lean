import Mathlib.Data.List.Permutation
import AnchorLowering.Proofs.CommentIndependence
import AnchorLowering.Proofs.NestedLayout
import AnchorLowering.Proofs.NestedSequence

/-!
# Nested code through the pipeline

Every step of the pipeline keeps nested code nested (`nested_run`), and so does the whole run
(`nested_lowerBody`), as long as the steps are *clean*: what a step takes out of the source leaves
no comment or literal open, and nothing is read otherwise where what it writes meets the rest. The
pipeline does not see to that. An argument that starts with a line comment takes the comment along
into a template, where it swallows the brackets after it (`not_nested_of_line_comment`).

Each step sees what the one before it left. So a second run can change what the first one wrote
(`second_run_changes`), and the slice that one step writes can hide a write from a later one
(`handle_not_mutable_of_iter_mut`).
-/

namespace AnchorLowering

open Source

variable {c : Context} {body : Text}

namespace Lowering

def Step.Clean (s : Step) (c : Context) (body : Text) : Prop :=
  match s with
  | sequences => CleanSequences c body
  | access => CleanAccess body
  | state => CleanState c body
  | calls => CleanCalls c body
  | assertions => CleanAssertions body
  | diagnostics => CleanDiagnostics c body
  | layout => CleanLayout body

instance : (s : Step) → (c : Context) → (body : Text) → Decidable (s.Clean c body)
  | .sequences, c, body => inferInstanceAs (Decidable (CleanSequences c body))
  | .access, _, body => inferInstanceAs (Decidable (CleanAccess body))
  | .state, c, body => inferInstanceAs (Decidable (CleanState c body))
  | .calls, c, body => inferInstanceAs (Decidable (CleanCalls c body))
  | .assertions, _, body => inferInstanceAs (Decidable (CleanAssertions body))
  | .diagnostics, c, body => inferInstanceAs (Decidable (CleanDiagnostics c body))
  | .layout, _, body => inferInstanceAs (Decidable (CleanLayout body))

theorem inert_of_isName {name : Text} (h : IsName name) : Inert name := fun x hx =>
  ⟨isPlain_of_isWord (h.word x hx), isBracket_of_class (by decide) (h.word x hx)⟩

theorem onSuccess_ok {ε : Type} {P : Text → Prop} {t : Text} (h : P t) :
    OnSuccess (.ok t : Except ε Text) P := by
  intro a ha
  rwa [← Except.ok.inj ha]

theorem nested_run (hc : c.Orderly) {s : Step} (hnested : Nested body) (h : s.Clean c body) :
    OnSuccess (s.run c body) Nested := by
  cases s with
  | sequences => exact onSuccess_ok (nested_lowerSequences hc hnested h)
  | access => exact onSuccess_ok (nested_lowerAccess hnested h)
  | state =>
    have hinert : ∀ b ∈ c.states, b.Inert := fun b hb =>
      ⟨inert_of_isName (hc.states b hb).1.account, inert_of_isName (hc.states b hb).2⟩
    exact onSuccess_ok (nested_lowerState hinert hnested h)
  | calls => exact nested_lowerProgramCalls hc hnested h
  | assertions => exact nested_lowerAssertions hnested h
  | diagnostics => exact nested_lowerDiagnostics hnested h
  | layout => exact onSuccess_ok (nested_layOut hnested h)

/-- Each step is clean on what the steps before it leave. -/
def CleanRun (c : Context) : List Step → Text → Prop
  | [], _ => True
  | s :: steps, body => s.Clean c body ∧ OnSuccess (s.run c body) (CleanRun c steps)

instance CleanRun.decide (c : Context) :
    (steps : List Step) → (body : Text) → Decidable (CleanRun c steps body)
  | [], _ => isTrue trivial
  | _ :: steps, _ =>
    have (body : Text) := CleanRun.decide c steps body
    inferInstanceAs (Decidable (_ ∧ _))

theorem CleanRun.cons {s : Step} {steps : List Step} {out : Text} (hclean : s.Clean c body)
    (hrun : s.run c body = .ok out) (h : CleanRun c steps out) : CleanRun c (s :: steps) body := by
  refine ⟨hclean, ?_⟩
  rw [hrun]
  exact onSuccess_ok h

theorem runSteps_cons {s : Step} {steps : List Step} {out : Text}
    (hrun : s.run c body = .ok out) : runSteps (s :: steps) c body = runSteps steps c out := by
  rw [runSteps, List.foldlM_cons, hrun]
  rfl

theorem runSteps_append {steps later : List Step} {out : Text}
    (hrun : runSteps steps c body = .ok out) :
    runSteps (steps ++ later) c body = runSteps later c out := by
  rw [runSteps] at hrun
  rw [runSteps, List.foldlM_append, hrun]
  rfl

theorem nested_runSteps (hc : c.Orderly) {steps : List Step} (hnested : Nested body)
    (h : CleanRun c steps body) : OnSuccess (runSteps steps c body) Nested := by
  induction steps generalizing body with
  | nil => exact onSuccess_ok hnested
  | cons s steps ih =>
    rw [runSteps, List.foldlM_cons]
    exact OnSuccess.bind fun next hnext => ih (nested_run hc hnested h.1 next hnext)
      (h.2 next hnext)

/-- **A clean run keeps nested code nested.** -/
theorem nested_lowerBody {c : Context} (hc : c.Orderly) {body out : Text} (hnested : Nested body)
    (hclean : CleanRun c Step.all body) (h : lowerBody c body = .ok out) : Nested out :=
  nested_runSteps hc hnested hclean out h

/-- The context of an instruction with an account that holds a `Pool` with nothing but a fee. -/
def feeContext : Context :=
  recordContext ⟨"Pool", 8, [⟨"fee", "u64", 8, 8, none, 0, 0⟩], []⟩ ["pool"]

def feeCheck : Text := "require!(ctx.accounts.pool.fee > n, E); // \x7b"

def feeRead : Text := "require!(pool.fee > n, E); // \x7b"

/-- A body in which the pool is bound to its handle. -/
def feeBound (body : Text) : Text :=
  "let pool_state = Pool::from_account_info(pool)?;\n".toList ++ body

theorem nested_lowerBody_fee :
    feeContext.Orderly ∧ Nested feeCheck ∧ CleanRun feeContext Step.all feeCheck ∧
    lowerBody feeContext feeCheck =
    .ok ("let pool_state = Pool::from_account_info(pool)?;\n".toList ++
      "if !(pool_state.fee > n) \x7b return Err(E.into()); \x7d\n// \x7b".toList) ∧
    Nested ("let pool_state = Pool::from_account_info(pool)?;\n".toList ++
      "if !(pool_state.fee > n) \x7b return Err(E.into()); \x7d\n// \x7b".toList) := by
  have hc : feeContext.Orderly := by decide +kernel
  have hnested : Nested feeCheck := by decide +kernel
  -- one evaluation for each step, on what the one before it leaves
  have hsequences : Step.sequences.Clean feeContext feeCheck ∧
      Step.sequences.run feeContext feeCheck = .ok feeCheck := by decide +kernel
  have haccess : Step.access.Clean feeContext feeCheck ∧
      Step.access.run feeContext feeCheck = .ok feeRead := by decide +kernel
  have hstate : Step.state.Clean feeContext feeRead ∧
      Step.state.run feeContext feeRead =
        .ok (feeBound "require!(pool_state.fee > n, E); // \x7b") := by decide +kernel
  have hcalls : Step.calls.Clean feeContext (feeBound "require!(pool_state.fee > n, E); // \x7b") ∧
      Step.calls.run feeContext (feeBound "require!(pool_state.fee > n, E); // \x7b") =
        .ok (feeBound "require!(pool_state.fee > n, E); // \x7b") := by decide +kernel
  have hassertions :
      Step.assertions.Clean feeContext (feeBound "require!(pool_state.fee > n, E); // \x7b") ∧
      Step.assertions.run feeContext (feeBound "require!(pool_state.fee > n, E); // \x7b") =
        .ok (feeBound "if !(pool_state.fee > n) \x7b return Err(E.into()); \x7d // \x7b") := by
    decide +kernel
  have hdiagnostics : Step.diagnostics.Clean feeContext
        (feeBound "if !(pool_state.fee > n) \x7b return Err(E.into()); \x7d // \x7b") ∧
      Step.diagnostics.run feeContext
        (feeBound "if !(pool_state.fee > n) \x7b return Err(E.into()); \x7d // \x7b") =
        .ok (feeBound "if !(pool_state.fee > n) \x7b return Err(E.into()); \x7d // \x7b") := by
    decide +kernel
  have hlayout : Step.layout.Clean feeContext
        (feeBound "if !(pool_state.fee > n) \x7b return Err(E.into()); \x7d // \x7b") ∧
      Step.layout.run feeContext
        (feeBound "if !(pool_state.fee > n) \x7b return Err(E.into()); \x7d // \x7b") =
        .ok (feeBound "if !(pool_state.fee > n) \x7b return Err(E.into()); \x7d\n// \x7b") := by
    constructor <;> decide +kernel
  have hclean : CleanRun feeContext Step.all feeCheck :=
    .cons hsequences.1 hsequences.2 <| .cons haccess.1 haccess.2 <| .cons hstate.1 hstate.2 <|
      .cons hcalls.1 hcalls.2 <| .cons hassertions.1 hassertions.2 <|
      .cons hdiagnostics.1 hdiagnostics.2 <| .cons hlayout.1 hlayout.2 trivial
  have hlowered : lowerBody feeContext feeCheck =
      .ok (feeBound "if !(pool_state.fee > n) \x7b return Err(E.into()); \x7d\n// \x7b") := by
    rw [lowerBody, Step.all, runSteps_cons hsequences.2, runSteps_cons haccess.2,
      runSteps_cons hstate.2, runSteps_cons hcalls.2, runSteps_cons hassertions.2,
      runSteps_cons hdiagnostics.2, runSteps_cons hlayout.2]
    rfl
  exact ⟨hc, hnested, hclean, hlowered, nested_lowerBody hc hnested hclean hlowered⟩

/-- **A line comment in an argument swallows the brackets of the template.** Blanks in the argument
are collapsed, so the line on which the comment stood goes on to the end of what is written. -/
theorem not_nested_of_line_comment : bareContext.Orderly ∧ Nested "require!(a, // c\n E);" ∧
    lowerBody bareContext "require!(a, // c\n E);" =
    .ok "if !(a) \x7b return Err(/* c E.into()); \x7d */".toList ∧
    ¬Nested "if !(a) \x7b return Err(/* c E.into()); \x7d */" := by
  have hchecked : runSteps [.sequences, .access, .state, .calls, .assertions] bareContext
      "require!(a, // c\n E);" = .ok "if !(a) \x7b return Err(// c E.into()); \x7d".toList := by
    decide +kernel
  refine ⟨by decide +kernel, by decide +kernel, ?_, by decide +kernel⟩
  rw [lowerBody, show Step.all = [.sequences, .access, .state, .calls, .assertions] ++
    [.diagnostics, .layout] from rfl, runSteps_append hchecked]
  decide +kernel

/-! ## What one step leaves to another -/

/-- **The second run can change a body.** The blanks at a double colon are taken away, and then the
colon before it is the start of another one. -/
theorem second_run_changes :
    lowerBody bareContext "let x : :: std :: Foo = a ;" = .ok "let x :::std::Foo = a;".toList ∧
      lowerBody bareContext "let x :::std::Foo = a;" = .ok "let x:::std::Foo = a;".toList := by
  constructor <;> decide +kernel

/-- The text in which handles are searched: sequences and accesses are lowered, and fields are
routed to the handles. -/
def routedBody (c : Context) (body : Text) : Text :=
  storeKeys c (routeFields c (foldAliases c
    (unloadRecords c.states (lowerAccess (lowerSequences c body))).1))

theorem run_state {c : Context} (hstates : c.states ≠ []) (body : Text) :
    runSteps [.sequences, .access, .state] c body =
      .ok (bindHandles c (unloadRecords c.states (lowerAccess (lowerSequences c body))).2
        (routedBody c body)) := by
  show Except.ok (lowerState c (lowerAccess (lowerSequences c body))) = _
  rw [lowerState, if_neg (by simpa using hstates)]
  rfl

/-- **A slice hides the method from the search for writes.** The step for sequences puts a slice
between the sequence and its method, and the step that binds handles reads only names and dots
between a handle and a method that writes. So the handle is bound for reading, though the elements
are borrowed for writing through it. -/
theorem handle_not_mutable_of_iter_mut :
    runSteps [.sequences, .access, .state] poolContext "pool.items.iter_mut();" =
    .ok ("let pool_state = Pool::from_account_info(pool)?;\n" ++
      "pool_state.items[..pool_state.items_len as usize].iter_mut();").toList := by
  have hstates : poolContext.states = [⟨"pool", "Pool", ["items", "items_len"]⟩] :=
    states_recordContext (by decide) ["pool"]
  have hlower : lowerSequences poolContext "pool.items.iter_mut();" =
      "pool.items[..pool.items_len as usize].iter_mut();".toList := by
    decide +kernel
  have hfold : foldAliases poolContext (unloadRecords poolContext.states
        (lowerAccess "pool.items[..pool.items_len as usize].iter_mut();")).1 =
      "pool.items[..pool.items_len as usize].iter_mut();".toList := by
    decide +kernel
  have hroute : routeFields poolContext "pool.items[..pool.items_len as usize].iter_mut();".toList =
      "pool_state.items[..pool_state.items_len as usize].iter_mut();".toList := by
    rw [routeFields, hstates]
    cbv
  rw [run_state (by rw [hstates]; simp), routedBody, hlower, hfold, hroute]
  decide +kernel

end Lowering

end AnchorLowering
