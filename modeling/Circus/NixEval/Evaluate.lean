/-
# The commands of an evaluation

`crates/evaluator/src/nix.rs`: `evaluate` runs Nix in three ways. A flake output
and a legacy expression go to evix with the options of the policy. For all
`nixosConfigurations` of a flake, `nix eval` lists them, again with the options,
and `nix derivation show` then resolves each one, without.

Every command evaluates code of the repository. What the commands and the file
system answer is a parameter (`World`); of an evix event the conversion of the
derivation to a job is left out, of a job its metadata.
-/
import Circus.Trace
import Circus.NixEval.AllowedUris

namespace Circus.NixEval

open Cache (splitFirst)
open Evaluator (JobsetInput InputType Limits)
open Evaluator.Webhooks (stripPrefix)

/-! ### Commands -/

inductive EvixInput
  | flake (ref : String)
  | file (path : String)
  deriving DecidableEq, Repr

inductive AutoArg
  | str (value : String)
  | expr (value : String)
  deriving DecidableEq, Repr

/-- The fields of `evix::Config` that differ between evaluations. -/
structure EvixConfig where
  input : EvixInput
  autoArgs : List (String × AutoArg) := []
  workers : ℕ
  itemTimeoutSeconds : ℕ
  maxMemorySize : ℕ
  overrideInputs : List (String × String) := []
  nixOptions : List (String × String)
  workerExe : Option String
  deriving DecidableEq, Repr

inductive Command
  /-- A session of evix. -/
  | evix (config : EvixConfig)
  /-- `nix` with arguments. -/
  | nix (args : List String)
  deriving DecidableEq, Repr

/-- The options among the arguments. -/
def optionsOf : List String → List (String × String)
  | "--option" :: key :: value :: rest => (key, value) :: optionsOf rest
  | _ :: rest => optionsOf rest
  | [] => []

/-- The options Nix evaluates with. -/
def Command.options : Command → List (String × String)
  | evix config => config.nixOptions
  | nix args => optionsOf args

/-! ### The world -/

structure ShownDerivation where
  drvPath : String
  system : Option String := none
  outputs : Option (List (String × String)) := none
  inputDrvs : Option (List (String × Value)) := none

structure NixJob extends ShownDerivation where
  name : String

structure EvalResult where
  jobs : List NixJob
  errorCount : ℕ := 0
  errors : List String := []

inductive Event
  | derivation (job : NixJob)
  | error (attr error : String)
  | attrSet

/-- How a session of evix ends. -/
inductive Session
  | refused (details : String)
  | events (events : List Event) (failure : Option String)
  | timedOut
  | cancelled

/-- How `nix` ends. -/
inductive Output
  | notRun (message : String)
  | failed (stderr : String)
  | printed (json : Except String Value)

inductive FileRead
  | notFound
  | failed (message : String)
  | contents (json : Except String Value)

structure World where
  flakeLock : FileRead := .notFound
  tackLock : FileRead := .notFound
  parseUrl : String → Option Url
  /-- The file URL of the checkout. -/
  checkoutUrl : Except CiError String
  limits : Limits
  canonicalize : String → Except String String
  startsWith : String → String → Bool
  evix : EvixConfig → Session
  /-- `none`: cancelled before it has started. -/
  listing : Option (Option Output)
  /-- The outcome of the `n`-th `nix derivation show`. -/
  shown : ℕ → Output

structure Request where
  repoPath : String
  repositoryUrl : String
  commitHash : String
  nixExpression : String
  flakeMode : Bool
  /-- In seconds. -/
  timeout : ℕ
  config : EvaluatorConfig
  inputs : List JobsetInput := []
  workerExe : Option String := none

/-- Commands, then a value or an error. -/
abbrev Run := Trace Command CiError

/-- `map_err` into `CiError::NixEval`. -/
def orNixEval {α : Type} (what : String) (r : Except String α) : Except CiError α :=
  r.mapError fun e => .nixEval (what ++ e)

/-! ### Expressions and lock files -/

def normalizeFlakeExpression (expression : String) : String :=
  let expression := ((stripPrefix ".#" expression).or (stripPrefix "#" expression)).getD expression
  if expression = "." then "" else expression

/-- Evaluating a raw `nixosConfigurations.<name>` does not yield a buildable derivation. -/
def rewriteNixosConfigExpr (expr : String) : Option String :=
  match (expr.toList.splitOn '.').map String.ofList with
  | ["nixosConfigurations", name] => some ("nixosConfigurations." ++ name ++ ".config.system.build.toplevel")
  | _ => none

def parseLockfile (json : Except String Value) : List String :=
  match json with
  | .ok root => (Lockfile.parse root).allowedUris
  | .error _ => []

def lockDerivedAllowedUris (w : World) (r : Request) : Except CiError (List String) :=
  if !r.config.restrictEval || !r.config.autoAllowedUris then .ok []
  else do
    let path := r.repoPath ++ "/flake.lock"
    let uris ← match w.flakeLock with
      | .contents json => .ok (parseLockfile json)
      | .notFound =>
        if r.config.requireLockedFlake then
          .error (.nixEval ("No flake.lock at " ++ path ++ " but require_locked_flake is enabled. Commit a " ++
            "lock file or disable require_locked_flake"))
        else .ok []
      | .failed e => .error (.nixEval ("Failed to read " ++ path ++ ": " ++ e))
    let tack := match w.tackLock with
      | .contents json => parseLockfile json
      | _ => []
    .ok (sortDedup (uris ++ tack))

/-- Merge `flake.lock`-derived `allowed-uris` with the root source URIs. -/
def evalAllowedUris (w : World) (r : Request) (source : SourceFlakeRef) : Except CiError (List String) := do
  let uris ← lockDerivedAllowedUris w r
  .ok (if r.config.restrictEval then uris ++ source.allowedUris else uris)

def sourceFlakeRef (w : World) (r : Request) : Except CiError SourceFlakeRef :=
  (ParsedRepo.parse w.parseUrl r.repositoryUrl).intoFlakeRef r.commitHash w.checkoutUrl

/-! ### Memory limits -/

def tooLarge : String := "evaluator memory limit is too large"

def evixMb (limitMb : Option ℕ) : Except String ℕ :=
  match limitMb with
  | none => .ok 4096
  | some limit => if limit < 2 ^ 64 then .ok limit else .error tooLarge

/-- `MemoryLimit::apply_to`. -/
def applyMemoryLimit (limitMb : Option ℕ) : Except String Unit :=
  match limitMb with
  | none => .ok ()
  | some limit => if limit * (1024 * 1024) < 2 ^ 64 then .ok () else .error tooLarge

/-! ### evix -/

def evixEvalFailure (description details : String) : CiError :=
  .nixEval (description ++ " evix evaluation failed: " ++ details)

def isResourceExhaustion (error : String) : Bool :=
  decide ("Resource temporarily unavailable".toList <:+: error.toList ∨ "os error 11".toList <:+: error.toList)

def retryWorkers (workers : ℕ) : Option ℕ := if 1 < workers then some ((workers + 1) / 2) else none

theorem retryWorkers_lt {workers fewer : ℕ} (h : retryWorkers workers = some fewer) : fewer < workers := by
  unfold retryWorkers at h
  split_ifs at h with hw
  have := Option.some.inj h
  omega

/-- Start evix, falling back to fewer workers. -/
def openSession (w : World) (config : EvixConfig) (description : String) (workers : ℕ) : Run Session :=
  match w.evix { config with workers } with
  | .refused details =>
    if isResourceExhaustion details then
      match _h : retryWorkers workers with
      | some fewer => do
        Trace.run (.evix { config with workers }) (.ok ())
        openSession w config description fewer
      | none => Trace.run (.evix { config with workers }) (.error (evixEvalFailure description details))
    else Trace.run (.evix { config with workers }) (.error (evixEvalFailure description details))
  | session => Trace.run (.evix { config with workers }) (.ok session)
termination_by workers
decreasing_by exact retryWorkers_lt _h

def reportedError (attr error : String) : String :=
  let message := (attr ++ ": " ++ error).toList
  if message.length ≤ 1024 then String.ofList message else String.ofList (message.take 1024) ++ "..."

def emptyEvaluationError (errorCount : ℕ) (errors : List String) : String :=
  if errorCount = 0 then "evaluation discovered no buildable derivations"
  else
    let omitted := errorCount - errors.length
    let more := if omitted = 0 then "" else "; " ++ toString omitted ++ " additional attribute error(s) omitted"
    "evaluation discovered no buildable derivations; evix reported " ++ toString errorCount ++
      " attribute error(s): " ++ "; ".intercalate errors ++ more

def collect (events : List Event) : EvalResult where
  jobs := events.filterMap fun | .derivation job => some job | _ => none
  errorCount := events.countP fun | .error _ _ => true | _ => false
  errors := (events.filterMap fun | .error attr e => some (reportedError attr e) | _ => none).take 3

/-- Drive an evix evaluation to completion. -/
def runEval (w : World) (config : EvixConfig) (timeout : ℕ) (description : String) : Run EvalResult := do
  match ← openSession w config description config.workers with
  | .events events none =>
    let result := collect events
    if result.jobs.isEmpty then
      Trace.lift (.error (.nixEval (emptyEvaluationError result.errorCount result.errors)))
    else pure result
  | .events _ (some failure) | .refused failure => Trace.lift (.error (evixEvalFailure description failure))
  | .timedOut => Trace.lift (.error (.timeout ("Nix evaluation timed out after " ++ toString timeout ++ "s")))
  | .cancelled => Trace.lift (.error (.nixEval "Nix evaluation was cancelled"))

/-! ### Attributes -/

def isStorePath (value : String) : Bool := (stripPrefix "/nix/store/" value).isSome

def isStoreDrvPath (value : String) : Bool := isStorePath value && Cache.hasExtension "drv" value.toList

def derivationPath (entries : List (String × Value)) : Option String :=
  if (entries.lookup "type").bind Value.asStr = some "derivation" then
    ((entries.lookup "drvPath").or (entries.lookup "drv_path")).bind Value.asStr
  else none

mutual

/-- Flatten a `nix eval --json` value into attribute paths and derivation paths. -/
def flattenAttrs (path : String) : Value → List (String × String)
  | .string s => if isStorePath s then [(path, s)] else []
  | .object entries =>
    match derivationPath entries with
    | some drvPath => [(path, drvPath)]
    | none => flattenEntries path entries
  | _ => []

def flattenEntries (path : String) : List (String × Value) → List (String × String)
  | [] => []
  | (key, value) :: rest =>
    flattenAttrs (if path = "" then key else path ++ "." ++ key) value ++ flattenEntries path rest

end

def parseDerivationShow (value : Value) : Option ShownDerivation := do
  let derivations ← ((value.get "derivations").bind Value.asObject).or value.asObject
  let (drvPath, drv) ← derivations.head?
  let outputs := ((drv.get "outputs").bind Value.asObject).map fun outputs => outputs.filterMap fun o =>
    (((o.2.get "path").or (o.2.get "outPath")).bind Value.asStr).map fun path => (o.1, path)
  pure
    { drvPath := if isStorePath drvPath then drvPath else "/nix/store/" ++ drvPath
      system := drv.str "system"
      outputs := outputs.filter fun map => !map.isEmpty
      inputDrvs := (drv.get "inputDrvs").bind Value.asObject }

/-! ### The three evaluations -/

def overrideInputs (w : World) (r : Request) : Except CiError (List (String × String)) :=
  (r.inputs.filter fun i => i.inputType = .git).mapM fun i => do
    orNixEval "Invalid jobset input: " (i.validate w.limits)
    pure (i.name, i.value)

def flakePolicy (w : World) (r : Request) (source : SourceFlakeRef) : Except CiError NixEvalPolicy :=
  (evalAllowedUris w r source).map fun uris => (NixEvalPolicy.ofConfig r.config).withExtraAllowedUris uris

def showArgs (source : SourceFlakeRef) (name : String) : List String :=
  ["derivation", "show", source.flakeRef ++ "#nixosConfigurations." ++ name ++ ".config.system.build.toplevel"]

/-- The `n`-th call of `resolve_drv`. -/
def resolveDrv (w : World) (r : Request) (source : SourceFlakeRef) (n : ℕ) (name : String) :
    Run (Option ShownDerivation) :=
  match applyMemoryLimit r.config.memoryLimitMb with
  | .error _ => pure none
  | .ok () => Trace.run (.nix (showArgs source name)) (.ok (match w.shown n with
      | .printed (.ok json) => parseDerivationShow json
      | _ => none))

/-- The loop over the configurations. -/
def resolveAll (w : World) (r : Request) (source : SourceFlakeRef) (n : ℕ) : List (String × String) → Run (List NixJob)
  | [] => pure []
  | (name, evalPath) :: rest => do
    let shown ← resolveDrv w r source n name
    let jobs ← resolveAll w r source (n + 1) rest
    pure (match shown with
      | some shown => { shown with name } :: jobs
      | none => if isStoreDrvPath evalPath then { name, drvPath := evalPath } :: jobs else jobs)

def listArgs (source : SourceFlakeRef) (policy : NixEvalPolicy) : List String :=
  ["eval", "--json", source.flakeRef ++ "#nixosConfigurations", "--apply",
    "builtins.mapAttrs (_: v: v.config.system.build.toplevel)", "--no-write-lock-file"] ++ policy.args

def listed : Output → Except CiError (List (String × String))
  | .notRun e => .error (.nixEval ("Failed to evaluate nixosConfigurations: " ++ e))
  | .failed stderr => .error (.nixEval ("Failed to evaluate nixosConfigurations: " ++ stderr))
  | .printed (.error e) => .error (.nixEval ("Failed to parse nixosConfigurations output: " ++ e))
  | .printed (.ok value) => .ok (flattenAttrs "" value)

/-- The attributes of `nixosConfigurations`. -/
def listNixosConfigs (w : World) (r : Request) (source : SourceFlakeRef) : Run (List (String × String)) := do
  let policy ← Trace.lift (flakePolicy w r source)
  Trace.lift (orNixEval "Failed to apply evaluator memory limit: " (applyMemoryLimit r.config.memoryLimitMb))
  match w.listing with
  | none => Trace.lift (.error (.nixEval "Nix evaluation was cancelled"))
  | some none => Trace.run (.nix (listArgs source policy)) (.error (.nixEval "Nix evaluation was cancelled"))
  | some (some output) => Trace.run (.nix (listArgs source policy)) (listed output)

/-- Resolve all toplevels in one nix eval. -/
def evaluateAllNixosConfigs (w : World) (r : Request) (source : SourceFlakeRef) : Run EvalResult := do
  let entries ← listNixosConfigs w r source
  let jobs ← resolveAll w r source 0 entries
  pure { jobs }

def evaluateFlake (w : World) (r : Request) (source : SourceFlakeRef) (nixExpression : String) : Run EvalResult :=
  if nixExpression = "nixosConfigurations" then evaluateAllNixosConfigs w r source
  else do
    let effectiveExpr := (rewriteNixosConfigExpr nixExpression).getD nixExpression
    let flakeRef := if effectiveExpr = "" then source.flakeRef else source.flakeRef ++ "#" ++ effectiveExpr
    let overrideInputs ← Trace.lift (overrideInputs w r)
    let policy ← Trace.lift (flakePolicy w r source)
    let maxMemorySize ← Trace.lift (orNixEval "" (evixMb r.config.memoryLimitMb))
    runEval w
      { input := .flake flakeRef
        workers := r.config.evalWorkers
        itemTimeoutSeconds := r.timeout
        maxMemorySize, overrideInputs
        nixOptions := policy.nixOptions
        workerExe := r.workerExe } r.timeout "flake"

/-- An input as an argument of a legacy expression. -/
def autoArg (w : World) (i : JobsetInput) : Except CiError (String × AutoArg) := do
  orNixEval "Invalid jobset input: " (i.validate w.limits)
  match i.inputType with
  | .string | .git => .ok (i.name, .str i.value)
  | .boolean =>
    if i.value = "true" ∨ i.value = "false" then .ok (i.name, .expr i.value)
    else .error (.nixEval ("Invalid boolean input '" ++ i.name ++ "': expected true or false"))
  | .build => .ok (i.name, .expr i.value)

/-- The file of a legacy expression, inside the checkout. -/
def exprPath (w : World) (r : Request) (nixExpression : String) : Except CiError String := do
  let repoPath ← orNixEval "Failed to canonicalize repository path: " (w.canonicalize r.repoPath)
  let path ← orNixEval "Failed to canonicalize nix expression path: "
    (w.canonicalize (repoPath ++ "/" ++ nixExpression))
  if w.startsWith path repoPath then .ok path
  else .error (.nixEval "Nix expression path escapes repository checkout")

def evaluateLegacy (w : World) (r : Request) (nixExpression : String) : Run EvalResult := do
  let path ← Trace.lift (exprPath w r nixExpression)
  let autoArgs ← Trace.lift (r.inputs.mapM (autoArg w))
  let maxMemorySize ← Trace.lift (orNixEval "" (evixMb r.config.memoryLimitMb))
  runEval w
    { input := .file path
      workers := r.config.evalWorkers
      itemTimeoutSeconds := r.timeout
      maxMemorySize, autoArgs
      nixOptions := (NixEvalPolicy.ofConfig r.config).nixOptions
      workerExe := r.workerExe } r.timeout "legacy"

/-- Evaluate nix expressions and return discovered jobs. -/
def evaluate (w : World) (r : Request) : Run EvalResult := do
  Trace.lift (orNixEval "Invalid nix expression: " (Evaluator.Validate.validateNixExpression r.nixExpression))
  let nixExpression := normalizeFlakeExpression r.nixExpression
  if r.flakeMode then
    let source ← Trace.lift (sourceFlakeRef w r)
    evaluateFlake w r source nixExpression
  else evaluateLegacy w r nixExpression

/-! ### The options of the commands -/

def policy (w : World) (r : Request) : NixEvalPolicy :=
  if r.flakeMode then
    match sourceFlakeRef w r >>= flakePolicy w r with
    | .ok policy => policy
    | .error _ => .ofConfig r.config
  else .ofConfig r.config

def configurations (w : World) (r : Request) : List (String × String) :=
  if r.flakeMode ∧ normalizeFlakeExpression r.nixExpression = "nixosConfigurations" then
    match (do
      orNixEval "Invalid nix expression: " (Evaluator.Validate.validateNixExpression r.nixExpression)
      let source ← sourceFlakeRef w r
      (listNixosConfigs w r source).result : Except CiError (List (String × String))) with
    | .ok entries => entries
    | .error _ => []
  else []

def Carries (p : NixEvalPolicy) (c : Command) : Prop := c.options = p.nixOptions

theorem optionsOf_cons_of_ne {arg : String} {rest : List String} (h : arg ≠ "--option") :
    optionsOf (arg :: rest) = optionsOf rest := by
  rw [optionsOf]
  intro _ _ _ he _
  exact h he

/-- **The flags are the options**, rendered for the command line. -/
theorem NixEvalPolicy.optionsOf_args (p : NixEvalPolicy) : optionsOf p.args = p.nixOptions := by
  unfold args nixOptions
  cases p.restrictEval <;> cases p.allowIfd <;> by_cases h : p.allowedUris = [] <;> simp [h, optionsOf]

theorem carries_list (source : SourceFlakeRef) (p : NixEvalPolicy) : Carries p (.nix (listArgs source p)) := by
  have href : source.flakeRef ++ "#nixosConfigurations" ≠ "--option" := fun he => by
    have hmem : '#' ∈ (source.flakeRef ++ "#nixosConfigurations").toList := by simp
    rw [he] at hmem
    revert hmem
    decide
  change optionsOf _ = _
  simp only [listArgs, List.cons_append, List.nil_append]
  rw [optionsOf_cons_of_ne (by decide), optionsOf_cons_of_ne (by decide), optionsOf_cons_of_ne href,
    optionsOf_cons_of_ne (by decide), optionsOf_cons_of_ne (by decide), optionsOf_cons_of_ne (by decide),
    p.optionsOf_args]

theorem options_show (source : SourceFlakeRef) (name : String) : (Command.nix (showArgs source name)).options = [] := by
  change optionsOf _ = _
  rw [showArgs, optionsOf_cons_of_ne (by decide), optionsOf_cons_of_ne (by decide), optionsOf, optionsOf]
  intro _ _ _ _ hnil
  cases hnil

variable {w : World} {p : NixEvalPolicy}

theorem every_openSession {config : EvixConfig} {description : String}
    (h : config.nixOptions = p.nixOptions) (workers : ℕ) :
    (openSession w config description workers).Every (Carries p) := by
  have hattempt : ∀ workers, Carries p (.evix { config with workers }) := fun _ => h
  induction workers using Nat.strong_induction_on with
  | _ workers ih =>
    unfold openSession
    split
    next details _ =>
      split_ifs
      · split
        next fewer hf =>
          refine Trace.every_bind.mpr ⟨Trace.every_run.mpr (hattempt _), fun _ _ => ?_⟩
          exact ih fewer (retryWorkers_lt hf)
        next => exact Trace.every_run.mpr (hattempt _)
      · exact Trace.every_run.mpr (hattempt _)
    next => exact Trace.every_run.mpr (hattempt _)

theorem every_runEval {config : EvixConfig} {timeout : ℕ} {description : String}
    (h : config.nixOptions = p.nixOptions) : (runEval w config timeout description).Every (Carries p) := by
  refine Trace.every_bind.mpr ⟨every_openSession h _, fun session _ => ?_⟩
  split
  · dsimp only
    split_ifs
    · exact Trace.every_lift _
    · exact Trace.every_pure _
  all_goals exact Trace.every_lift _

variable {α β : Type} {P : Command → Prop}

/-- Checks issue no command. -/
theorem every_lift_bind {x : Except CiError α} {f : α → Run β} :
    (Trace.lift x >>= f).Every P ↔ ∀ a, x = .ok a → (f a).Every P := by
  rw [Trace.every_bind, and_iff_right (Trace.every_lift x), Trace.result_lift]

theorem every_lift_ok_bind {a : α} {f : α → Run β} :
    (Trace.lift (.ok a) >>= f).Every P ↔ (f a).Every P := by
  rw [every_lift_bind]
  refine ⟨fun h => h a rfl, fun h b hb => ?_⟩
  cases hb
  exact h

theorem every_lift_error_bind {e : CiError} {f : α → Run β} :
    (Trace.lift (.error e) >>= f).Every P := every_lift_bind.mpr fun _ h => by cases h

theorem every_evaluateLegacy (w : World) (r : Request) (expr : String) :
    (evaluateLegacy w r expr).Every (Carries (.ofConfig r.config)) := by
  refine every_lift_bind.mpr fun path _ => every_lift_bind.mpr fun autoArgs _ => every_lift_bind.mpr fun mb _ => ?_
  exact every_runEval rfl

variable {r : Request} {source : SourceFlakeRef}

theorem every_evaluateFlake {expr : String}
    (he : expr ≠ "nixosConfigurations") (hp : ∀ p', flakePolicy w r source = .ok p' → p' = p) :
    (evaluateFlake w r source expr).Every (Carries p) := by
  rw [evaluateFlake, if_neg he]
  refine every_lift_bind.mpr fun inputs _ => every_lift_bind.mpr fun p' hp' => every_lift_bind.mpr fun mb _ => ?_
  rw [hp p' hp']
  exact every_runEval rfl

theorem every_listNixosConfigs
    (hp : ∀ p', flakePolicy w r source = .ok p' → p' = p) : (listNixosConfigs w r source).Every (Carries p) := by
  refine every_lift_bind.mpr fun p' hp' => every_lift_bind.mpr fun _ _ => ?_
  rw [hp p' hp']
  split
  · exact Trace.every_lift _
  · exact Trace.every_run.mpr (carries_list source p)
  · exact Trace.every_run.mpr (carries_list source p)

/-- Configurations are listed only under the memory limit. -/
theorem memory_of_listNixosConfigs
    {entries : List (String × String)} (h : (listNixosConfigs w r source).result = .ok entries) :
    applyMemoryLimit r.config.memoryLimitMb = .ok () := by
  rw [listNixosConfigs, Trace.result_lift_bind] at h
  obtain ⟨p, -, h⟩ := Rpc.bind_eq_ok.mp h
  rw [Trace.result_lift_bind] at h
  obtain ⟨_, hm, -⟩ := Rpc.bind_eq_ok.mp h
  cases hl : applyMemoryLimit r.config.memoryLimitMb with
  | ok => rfl
  | error =>
    rw [hl] at hm
    cases hm

/-- **No configuration is resolved with options.** -/
theorem every_resolveAll_iff
    (hm : applyMemoryLimit r.config.memoryLimitMb = .ok ()) : ∀ {entries : List (String × String)} {n : ℕ},
    (resolveAll w r source n entries).Every (Carries p) ↔ entries = [] ∨ p.nixOptions = []
  | [], _ => by simp [resolveAll]
  | (name, path) :: rest, n => by
    have hfirst : ∀ x, (resolveDrv w r source n x).Every (Carries p) ↔ p.nixOptions = [] := fun x => by
      rw [resolveDrv, hm]
      change (Trace.run _ _).Every _ ↔ _
      rw [Trace.every_run, Carries, options_show]
      exact eq_comm
    rw [resolveAll, Trace.every_bind, hfirst, or_iff_right (List.cons_ne_nil _ _), and_iff_left_iff_imp]
    intro hnone shown _
    refine Trace.every_bind.mpr ⟨(every_resolveAll_iff hm).mpr (.inr hnone), fun jobs _ => ?_⟩
    exact Trace.every_pure _

theorem every_evaluateAllNixosConfigs_iff
    (hp : ∀ p', flakePolicy w r source = .ok p' → p' = p) : (evaluateAllNixosConfigs w r source).Every (Carries p) ↔
      ∀ entries, (listNixosConfigs w r source).result = .ok entries → entries = [] ∨ p.nixOptions = [] := by
  rw [evaluateAllNixosConfigs, Trace.every_bind, and_iff_right (every_listNixosConfigs hp)]
  refine forall₂_congr fun entries he => ?_
  rw [Trace.every_bind, every_resolveAll_iff (memory_of_listNixosConfigs he)]
  exact and_iff_left fun jobs _ => Trace.every_pure _

/-- **Every command of an evaluation carries the policy's options** exactly if no configuration has to
be resolved or the policy has no options: `nix derivation show` runs without them. -/
theorem policy_covers_iff (w : World) (r : Request) :
    (∀ c ∈ (evaluate w r).issued, c.options = (policy w r).nixOptions) ↔
      configurations w r = [] ∨ (policy w r).nixOptions = [] := by
  change (evaluate w r).Every (Carries (policy w r)) ↔ _
  rw [evaluate]
  unfold configurations
  cases orNixEval "Invalid nix expression: " (Evaluator.Validate.validateNixExpression r.nixExpression) with
  | error => exact iff_of_true every_lift_error_bind (.inl (by split_ifs <;> rfl))
  | ok =>
    rw [every_lift_ok_bind]
    by_cases hflake : r.flakeMode = true
    · rw [if_pos hflake]
      cases hs : sourceFlakeRef w r with
      | error => exact iff_of_true every_lift_error_bind (.inl (by split_ifs <;> rfl))
      | ok source =>
        have hp : ∀ p', flakePolicy w r source = .ok p' → p' = policy w r := fun p' hp' => by
          rw [policy, if_pos hflake, hs]
          change p' = match flakePolicy w r source with | .ok policy => policy | .error _ => _
          rw [hp']
        rw [every_lift_ok_bind]
        by_cases he : normalizeFlakeExpression r.nixExpression = "nixosConfigurations"
        · rw [if_pos ⟨hflake, he⟩, he, evaluateFlake, if_pos rfl, every_evaluateAllNixosConfigs_iff hp]
          change _ ↔ (match (listNixosConfigs w r source).result with
            | .ok entries => entries
            | .error _ => []) = [] ∨ _
          cases (listNixosConfigs w r source).result with
          | error | ok => simp
        · rw [if_neg fun h => he h.2]
          exact iff_of_true (every_evaluateFlake he hp) (.inl rfl)
    · have hp : policy w r = .ofConfig r.config := if_neg hflake
      rw [if_neg hflake, if_neg fun h => hflake h.1, hp]
      exact iff_of_true (every_evaluateLegacy w r _) (.inl rfl)

/-- A flake with one configuration. -/
def oneHost : World where
  parseUrl := fun _ => none
  checkoutUrl := .ok "file:///var/lib/circus/evaluator/repo"
  limits := { parseRef := fun _ => .ok (), refused := fun _ => false }
  canonicalize := .ok
  startsWith := fun _ _ => true
  evix := fun _ => .timedOut
  listing := some (some (.printed (.ok (.object [("host", .string "/nix/store/abc-nixos-system-host")]))))
  shown := fun _ => .failed ""

def allHosts : Request where
  repoPath := "/var/lib/circus/evaluator/repo"
  repositoryUrl := "https://github.com/owner/repo"
  commitHash := "c0ffee"
  nixExpression := "nixosConfigurations"
  flakeMode := true
  timeout := 600
  config := { restrictEval := true, allowIfd := false }

/-- The configuration is evaluated again without `restrict-eval`, and builds at evaluation time are
allowed. -/
theorem derivation_show_escapes_policy :
    Command.nix ["derivation", "show",
        "github:owner/repo/c0ffee#nixosConfigurations.host.config.system.build.toplevel"] ∈
      (evaluate oneHost allHosts).issued ∧
    (policy oneHost allHosts).nixOptions = [("restrict-eval", "true"), ("allow-import-from-derivation", "false"),
      ("allowed-uris", "github:owner/repo")] ∧
    optionsOf ["derivation", "show",
        "github:owner/repo/c0ffee#nixosConfigurations.host.config.system.build.toplevel"] = [] := by
  decide +kernel

end Circus.NixEval
