import SexprCompiler.Command.Run
import SexprCompiler.Proofs.Files
import SexprCompiler.Proofs.Outcome

/-!
# Runs are all or nothing

A run loads its source, works on it and delivers the result, in this order. So a run that fails,
whatever the machine refuses to it, has printed nothing and changed no file, and a run that
succeeds has printed one whole text or replaced the content of one file, from a source that was
loaded before. That holds for a run that writes to the file it has read.

Nothing is said about the machine but that it reads and writes whole files or fails without a
change: this is a property of what can be seen of it, whatever its states are and whatever paths
it knows. The machine that is described as data has this property.
-/
namespace SexprCompiler

/-! ## What can be seen of a machine -/

/-- What can be seen of a machine in each of its states: the bytes on the standard input, unless
that is a terminal, what has been printed, what the files hold that there are, and the file to
which a path leads, be it there or still to be made. Several paths may lead to one file. -/
structure View (σ F : Type) where
  input : σ → Option ByteArray
  stdout : σ → String
  content : σ → F → Option ByteArray
  file? : σ → String → Option F

namespace View

variable {σ F : Type}

/-- Nothing was printed, and no file is other than it was. -/
structure Unchanged (view : View σ F) (before after : σ) : Prop where
  stdout : view.stdout after = view.stdout before
  content : view.content after = view.content before
  file? : view.file? after = view.file? before

/-- The file at a path has come to hold a text, and nothing else has changed. -/
structure Replaced (view : View σ F) (before after : σ) (path text : String) : Prop where
  stdout : view.stdout after = view.stdout before
  file? : view.file? after path = view.file? before path
  content : ∃ file, view.file? before path = some file ∧
    view.content after file = some text.toUTF8 ∧
    ∀ other, other ≠ file → view.content after other = view.content before other

/-- A text was printed, and no file is other than it was. -/
structure Printed (view : View σ F) (before after : σ) (text : String) : Prop where
  stdout : view.stdout after = view.stdout before ++ text
  content : view.content after = view.content before

variable {view : View σ F} {before after last : σ}

theorem Unchanged.trans (h : view.Unchanged before after) (h' : view.Unchanged after last) :
    view.Unchanged before last :=
  ⟨h'.stdout.trans h.stdout, h'.content.trans h.content, h'.file?.trans h.file?⟩

theorem Unchanged.replaced {path text : String} (h : view.Unchanged before after)
    (h' : view.Replaced after last path text) : view.Replaced before last path text := by
  obtain ⟨hstdout, hfile, hcontent⟩ := h'
  rw [h.stdout] at hstdout
  rw [h.file?] at hfile hcontent
  rw [h.content] at hcontent
  exact ⟨hstdout, hfile, hcontent⟩

theorem Unchanged.printed {text : String} (h : view.Unchanged before after)
    (h' : view.Printed after last text) : view.Printed before last text :=
  ⟨h.stdout ▸ h'.stdout, h'.content.trans h.content⟩

end View

def perform {σ α : Type} (action : ExceptT RunError (StateM σ) α) (state : σ) :
    Except RunError α × σ :=
  action.run.run state

/-- A machine reads and writes whole files, or fails without a change. What is read is what the file
or the standard input holds, and what is written is what the file then holds. -/
structure View.Whole {σ F : Type} [Platform (StateM σ)] (view : View σ F) : Prop where
  isTerminal : ∀ state, (Platform.isTerminal : StateM σ Bool).run state =
    ((view.input state).isNone, state)
  readInput : ∀ {state outcome after}, perform Platform.readInput state = (outcome, after) →
    view.Unchanged state after ∧ ∀ bytes text, view.input state = some bytes →
      outcome = .ok text → bytes = text.toUTF8
  readFile : ∀ {path state outcome after},
    perform (Platform.readFile path) state = (outcome, after) →
      view.Unchanged state after ∧ ∀ text, outcome = .ok text →
        ∃ file, view.file? state path = some file ∧ view.content state file = some text.toUTF8
  writeFile_ok : ∀ {path text state after},
    perform (Platform.writeFile path text) state = (.ok (), after) →
      view.Replaced state after path text
  writeFile_error : ∀ {path text state error after},
    perform (Platform.writeFile path text) state = (.error error, after) →
      view.Unchanged state after
  print : ∀ text state, view.Printed state ((Platform.print text : StateM σ Unit).run state).2 text
  report : ∀ text state, view.Unchanged state ((Platform.report text : StateM σ Unit).run state).2

/-! ## What a run finds and what it leaves -/

section

variable {σ F : Type}

/-- A text is what the input of a command holds. -/
inductive View.Loads (view : View σ F) (state : σ) : Option String → String → Prop
  | file {path source : String} {file : F} (hfile : view.file? state path = some file)
      (hcontent : view.content state file = some source.toUTF8) :
      Loads view state (some path) source
  | piped {source : String} (hinput : view.input state = some source.toUTF8) :
      Loads view state none source
  | default {source : String} {file : F} (hterminal : view.input state = none)
      (hfile : view.file? state Command.defaultInput = some file)
      (hcontent : view.content state file = some source.toUTF8) : Loads view state none source

namespace Command

/-- What a successful run leaves, given its source. -/
inductive Delivers (view : View σ F) (source : String) (before after : σ) : Command → Prop
  | written {input : Option String} {path package text : String}
      (hcompile : compile package source = .ok text)
      (hreplaced : view.Replaced before after path text) :
      Delivers view source before after (.build input (some path) package)
  | printed {input : Option String} {package text : String}
      (hcompile : compile package source = .ok text) (hprinted : view.Printed before after text) :
      Delivers view source before after (.build input none package)
  | listed {stage : Listing.Stage} {input : Option String} {pretty : Bool} {text : String}
      (hlist : Listing.text stage pretty source = .ok text)
      (hprinted : view.Printed before after (text ++ "\n")) :
      Delivers view source before after (.list stage input pretty)

variable [Platform (StateM σ)]

/-- The access to the input of a command has an outcome. -/
inductive Finds (state : σ) : Option String → Except RunError String → σ → Prop
  | file {path : String} {outcome : Except RunError String} {after : σ}
      (h : perform (Platform.readFile path) state = (outcome, after)) :
      Finds state (some path) outcome after
  | piped {outcome : Except RunError String} {asked after : σ}
      (hterminal : (Platform.isTerminal : StateM σ Bool).run state = (false, asked))
      (h : perform Platform.readInput asked = (outcome, after)) : Finds state none outcome after
  | default {outcome : Except RunError String} {asked after : σ}
      (hterminal : (Platform.isTerminal : StateM σ Bool).run state = (true, asked))
      (h : perform (Platform.readFile defaultInput) asked = (outcome, after)) :
      Finds state none outcome after

/-- The reasons for which a run fails: no source is found, the source is not accepted, or the result
cannot be written. -/
inductive Fails (state : σ) : Command → Prop
  | unread {command : Command} {error : RunError} {after : σ}
      (h : Finds state command.input (.error error) after) : Fails state command
  | uncompiled {input output : Option String} {package source : String} {error : CompileError}
      {after : σ} (hfinds : Finds state input (.ok source) after)
      (h : compile package source = .error error) : Fails state (.build input output package)
  | unlisted {stage : Listing.Stage} {input : Option String} {pretty : Bool} {source : String}
      {error : CompileError} {after : σ} (hfinds : Finds state input (.ok source) after)
      (h : Listing.text stage pretty source = .error error) : Fails state (.list stage input pretty)
  | unwritten {input : Option String} {path package source text : String} {error : RunError}
      {after last : σ} (hfinds : Finds state input (.ok source) after)
      (hcompile : compile package source = .ok text)
      (h : perform (Platform.writeFile path text) after = (.error error, last)) :
      Fails state (.build input (some path) package)

end Command

end

/-! ## The machine as data -/

namespace Host

theorem read_eq_ok_iff {host : Host} {path source : String} :
    host.read path = .ok source ↔ host.files.read path = .ok source := by
  unfold Host.read
  cases host.files.read path <;> simp

theorem readInput_eq_ok_iff {host : Host} {source : String} :
    host.readInput = .ok source ↔ decodeUtf8 (host.input.getD .empty) = .ok source := by
  unfold Host.readInput
  cases decodeUtf8 (host.input.getD .empty) <;> simp

theorem write_eq_ok_iff {host : Host} {path text : String} {after : Files} :
    host.write path text = .ok after ↔ host.files.write path text = .ok after := by
  unfold Host.write
  cases host.files.write path text <;> simp

end Host

namespace World

/-- What is seen of the machine as data. Its files are known by their places. -/
def view : View World (List String) where
  input world := world.input
  stdout := stdout
  content world := world.files.get?
  file? world := world.files.place?

theorem attempt_eq_ok_iff {α : Type} {world : World} {access : Access} {outcome : Except RunError α}
    {value : α} :
    world.attempt access outcome = .ok value ↔
      world.refusal access = none ∧ outcome = .ok value := by
  unfold attempt
  cases world.refusal access <;> simp

theorem replaced_set {world : World} {path : String} {place : List String} (text : String)
    (h : world.files.place? path = some place) :
    view.Replaced world { world with files := world.files.set place text.toUTF8 } path text where
  stdout := rfl
  file? := (Files.place?_set _ h).trans h.symm
  content := by
    refine ⟨place, h, ?_, ?_⟩
    · exact (Files.get?_set ..).trans (if_pos rfl)
    · intro other hne
      exact (Files.get?_set ..).trans (if_neg hne)

theorem writeFile_of_place {world : World} {path : String} {place : List String}
    (haccess : world.refusal (.write path) = none) (h : world.files.place? path = some place)
    (text : String) : world.writeFile path text =
      (.ok (), { world with files := world.files.set place text.toUTF8 }) := by
  have hwrite : world.write path text = .ok (world.files.set place text.toUTF8) :=
    Host.write_eq_ok_iff.mpr (Files.write_eq_ok_iff.mpr ⟨place, h, rfl⟩)
  rw [writeFile, attempt_eq_ok_iff.mpr ⟨haccess, hwrite⟩]

/-- Writing replaces the content of the file at a path, or leaves the machine as it was. -/
theorem writeFile_cases (world : World) (path text : String) :
    (∃ after, world.writeFile path text = (.ok (), after) ∧ view.Replaced world after path text) ∨
      ∃ error, world.writeFile path text = (.error error, world) := by
  unfold writeFile
  cases hattempt : world.attempt (.write path) (world.write path text) with
  | error error => exact .inr ⟨error, rfl⟩
  | ok files =>
    have hwrite := Host.write_eq_ok_iff.mp (attempt_eq_ok_iff.mp hattempt).2
    obtain ⟨place, hplace, rfl⟩ := Files.write_eq_ok_iff.mp hwrite
    exact .inl ⟨_, rfl, replaced_set text hplace⟩

theorem unchanged_self (world : World) : view.Unchanged world world := ⟨rfl, rfl, rfl⟩

theorem whole_view : view.Whole where
  isTerminal _ := rfl
  readInput := by
    rintro world _ _ ⟨⟩
    refine ⟨unchanged_self world, fun bytes text hinput hread => ?_⟩
    have hdecoded : world.readInput = .ok text := (attempt_eq_ok_iff.mp hread).2
    have hbytes : world.input.getD .empty = bytes := by
      rw [show world.input = some bytes from hinput, Option.getD_some]
    rw [Host.readInput_eq_ok_iff, hbytes] at hdecoded
    exact decodeUtf8_eq_ok_iff.mp hdecoded
  readFile := by
    rintro path world _ _ ⟨⟩
    refine ⟨unchanged_self world, fun text hread => ?_⟩
    have hfiles : world.read path = .ok text := (attempt_eq_ok_iff.mp hread).2
    exact Files.get?_of_read (Host.read_eq_ok_iff.mp hfiles)
  writeFile_ok := by
    intro path text world after h
    obtain ⟨_, hdone, hreplaced⟩ | ⟨error, hfailed⟩ := writeFile_cases world path text
    · cases hdone.symm.trans h
      exact hreplaced
    · cases hfailed.symm.trans h
  writeFile_error := by
    intro path text world error after h
    obtain ⟨_, hdone, -⟩ | ⟨_, hfailed⟩ := writeFile_cases world path text
    · cases hdone.symm.trans h
    · cases hfailed.symm.trans h
      exact unchanged_self world
  print _ _ := ⟨rfl, rfl⟩
  report _ _ := ⟨rfl, rfl, rfl⟩

end World

/-! ## One access -/

section

variable {σ α β : Type} {state after : σ}

theorem perform_bind_ok {value : α} {action : ExceptT RunError (StateM σ) α}
    {next : α → ExceptT RunError (StateM σ) β} (h : perform action state = (.ok value, after)) :
    perform (action >>= next) state = perform (next value) after := by
  unfold perform at h ⊢
  rw [ExceptT.run_bind, StateT.run_bind, h]
  rfl

theorem perform_bind_error {error : RunError} {action : ExceptT RunError (StateM σ) α}
    {next : α → ExceptT RunError (StateM σ) β} (h : perform action state = (.error error, after)) :
    perform (action >>= next) state = (.error error, after) := by
  unfold perform at h ⊢
  rw [ExceptT.run_bind, StateT.run_bind, h]
  rfl

end

namespace Command

variable {σ F : Type} [Platform (StateM σ)] {view : View σ F} {state after : σ} {command : Command}

theorem perform_load_none (state : σ) :
    perform (load none) state =
      perform (if ((Platform.isTerminal : StateM σ Bool).run state).1 then
          Platform.readFile defaultInput else Platform.readInput)
        ((Platform.isTerminal : StateM σ Bool).run state).2 := rfl

theorem finds_iff {input : Option String} {outcome : Except RunError String} :
    Finds state input outcome after ↔ perform (load input) state = (outcome, after) := by
  cases input with
  | some path =>
    constructor
    · rintro ⟨h⟩
      exact h
    · intro h
      exact .file h
  | none =>
    rw [perform_load_none]
    constructor
    · rintro (_ | ⟨hterminal, h⟩ | ⟨hterminal, h⟩)
      · rw [hterminal]
        exact h
      · rw [hterminal]
        exact h
    · intro h
      rcases hterminal : (Platform.isTerminal : StateM σ Bool).run state with ⟨_ | _, asked⟩
      · rw [hterminal] at h
        exact .piped hterminal h
      · rw [hterminal] at h
        exact .default hterminal h

/-- Loading changes nothing and gives what the input holds. -/
theorem Finds.loads (hwhole : view.Whole) {input : Option String} {outcome : Except RunError String}
    (h : Finds state input outcome after) :
    view.Unchanged state after ∧
      ∀ source, outcome = .ok source → view.Loads state input source := by
  cases h with
  | file h =>
    obtain ⟨hunchanged, hread⟩ := hwhole.readFile h
    refine ⟨hunchanged, fun source hsource => ?_⟩
    obtain ⟨file, hfile, hcontent⟩ := hread source hsource
    exact .file hfile hcontent
  | piped hterminal h =>
    rw [hwhole.isTerminal, Prod.mk.injEq, Option.isNone_eq_false_iff,
      Option.isSome_iff_exists] at hterminal
    obtain ⟨⟨bytes, hinput⟩, rfl⟩ := hterminal
    obtain ⟨hunchanged, hread⟩ := hwhole.readInput h
    refine ⟨hunchanged, fun source hsource => .piped ?_⟩
    rw [hinput, hread bytes source hinput hsource]
  | default hterminal h =>
    rw [hwhole.isTerminal, Prod.mk.injEq, Option.isNone_iff_eq_none] at hterminal
    obtain ⟨hnone, rfl⟩ := hterminal
    obtain ⟨hunchanged, hread⟩ := hwhole.readFile h
    refine ⟨hunchanged, fun source hsource => ?_⟩
    obtain ⟨file, hfile, hcontent⟩ := hread source hsource
    exact .default hnone hfile hcontent

/-! ## The whole run -/

section

variable {source text : String}

theorem run_of_unread {error : RunError} (h : Finds state command.input (.error error) after) :
    perform (run command) state = (.error error, after) :=
  perform_bind_error (finds_iff.mp h)

theorem run_of_refused {error : CompileError} (h : Finds state command.input (.ok source) after)
    (hresult : command.result source = .error error) :
    perform (run command) state = (.error (.compile error), after) := by
  unfold run
  rw [perform_bind_ok (finds_iff.mp h), hresult]
  rfl

theorem run_of_result (h : Finds state command.input (.ok source) after)
    (hresult : command.result source = .ok text) :
    perform (run command) state = perform (deliver text command.output) after := by
  unfold run
  rw [perform_bind_ok (finds_iff.mp h), hresult]

end

theorem Fails.run (h : Fails state command) :
    ∃ error after, perform (run command) state = (.error error, after) := by
  cases h with
  | unread h => exact ⟨_, _, run_of_unread h⟩
  | uncompiled hfinds h => exact ⟨_, _, run_of_refused hfinds h⟩
  | @unlisted stage input pretty source error after hfinds h =>
    have hresult : (list stage input pretty).result source = .error error := by
      rw [result, h]
      rfl
    exact ⟨_, _, run_of_refused hfinds hresult⟩
  | @unwritten input path package source text error after last hfinds hcompile h =>
    have hresult : (build input (some path) package).result source = .ok text := hcompile
    exact ⟨_, _, (run_of_result hfinds hresult).trans h⟩

theorem fails_of_refused {source : String} {error : CompileError}
    (hfinds : Finds state command.input (.ok source) after)
    (h : command.result source = .error error) : Fails state command := by
  cases command with
  | build input output package => exact .uncompiled hfinds h
  | list stage input pretty =>
    cases hlist : Listing.text stage pretty source with
    | error error => exact .unlisted hfinds hlist
    | ok text =>
      rw [result, hlist] at h
      cases h

/-- The end of a run that has a result: the result is delivered, or it cannot be written. -/
theorem deliver_cases (hwhole : view.Whole) {source text : String}
    (hfinds : Finds state command.input (.ok source) after)
    (hresult : command.result source = .ok text) :
    (∃ last, perform (deliver text command.output) after = (.ok (), last) ∧
      Delivers view source state last command) ∨
    (∃ error last, perform (deliver text command.output) after = (.error error, last) ∧
      Fails state command ∧ view.Unchanged state last) := by
  obtain ⟨hunchanged, -⟩ := hfinds.loads hwhole
  cases command with
  | build input output package =>
    cases output with
    | none =>
      exact .inl ⟨_, rfl, .printed hresult (hunchanged.printed (hwhole.print text after))⟩
    | some path =>
      rcases hwrite : perform (Platform.writeFile path text) after with ⟨error | ⟨⟩, last⟩
      · exact .inr ⟨error, last, hwrite, .unwritten hfinds hresult hwrite,
          hunchanged.trans (hwhole.writeFile_error hwrite)⟩
      · exact .inl ⟨last, hwrite,
          .written hresult (hunchanged.replaced (hwhole.writeFile_ok hwrite))⟩
  | list stage input pretty =>
    obtain ⟨listing, hlisting, rfl⟩ :=
      Outcome.map_eq_ok.mp (hresult : (· ++ "\n") <$> Listing.text stage pretty source = _)
    exact .inl ⟨_, rfl, .listed hlisting (hunchanged.printed (hwhole.print _ after))⟩

/-- A run fails for a reason, without a change, or it succeeds and delivers. -/
theorem run_cases (hwhole : view.Whole) (command : Command) (state : σ) :
    (∃ error after, perform (run command) state = (.error error, after) ∧ Fails state command ∧
      view.Unchanged state after) ∨
    (∃ source after, perform (run command) state = (.ok (), after) ∧
      view.Loads state command.input source ∧ Delivers view source state after command) := by
  rcases hload : perform (load command.input) state with ⟨error | source, after⟩
  · have hfinds := finds_iff.mpr hload
    exact .inl ⟨error, after, run_of_unread hfinds, .unread hfinds, (hfinds.loads hwhole).1⟩
  · have hfinds := finds_iff.mpr hload
    obtain ⟨hunchanged, hloads⟩ := hfinds.loads hwhole
    cases hresult : command.result source with
    | error error =>
      exact .inl ⟨_, after, run_of_refused hfinds hresult, fails_of_refused hfinds hresult,
        hunchanged⟩
    | ok text =>
      rw [run_of_result hfinds hresult]
      obtain ⟨last, hdeliver, hdelivers⟩ | hfailed := deliver_cases hwhole hfinds hresult
      · exact .inr ⟨source, last, hdeliver, hloads source rfl, hdelivers⟩
      · exact .inl hfailed

theorem finish_of_ok (h : perform (run command) state = (.ok (), after)) :
    (finish command : StateM σ Nat).run state = (0, after) := by
  unfold perform at h
  rw [finish, StateT.run_bind, h]
  rfl

theorem finish_of_error {error : RunError}
    (h : perform (run command) state = (.error error, after)) :
    (finish command : StateM σ Nat).run state =
      (1, ((Platform.report (error.message ++ "\n") : StateM σ Unit).run after).2) := by
  unfold perform at h
  rw [finish, StateT.run_bind, h]
  rfl

/-- On a machine that reads and writes whole files or fails without a change, a run has one of two
ends. Where a reason to fail is met, it exits with 1, has printed nothing and has changed no file.
Else it exits with 0 and has delivered the result of the source that its input holds: printed, or
as the content of the output file and with no other change. -/
theorem runs_are_all_or_nothing {σ F : Type} [Platform (StateM σ)] {view : View σ F}
    (hwhole : view.Whole) (command : Command) (state : σ) :
    ∃ code after, (finish command : StateM σ Nat).run state = (code, after) ∧
      (code = 1 ↔ Fails state command) ∧
      (code = 1 → view.Unchanged state after) ∧
      (code ≠ 1 → code = 0 ∧ ∃ source, view.Loads state command.input source ∧
        Delivers view source state after command) := by
  obtain ⟨error, after, hrun, hfails, hunchanged⟩ | ⟨source, after, hrun, hloads, hdelivers⟩ :=
    run_cases hwhole command state
  · exact ⟨1, _, finish_of_error hrun, iff_of_true rfl hfails,
      fun _ => hunchanged.trans (hwhole.report _ after), fun hne => absurd rfl hne⟩
  · have hsucceeds : ¬Fails state command := by
      intro hfails
      obtain ⟨error, other, hother⟩ := hfails.run
      cases (hrun.symm.trans hother : (_, _) = (_, _))
    exact ⟨0, after, finish_of_ok hrun, iff_of_false Nat.zero_ne_one hsucceeds,
      fun hone => absurd hone Nat.zero_ne_one, fun _ => ⟨rfl, source, hloads, hdelivers⟩⟩

def oneSource : World := .fresh ⟨none, Files.empty.set ["a.s"] "(:int 1)".toUTF8⟩

theorem ofString_source : Path.ofString "a.s" = ⟨false, [.name "a.s"], false⟩ := by decide +kernel

theorem locate_source : oneSource.files.locate (Path.ofString "a.s") =
    .ok (.file ["a.s"] "(:int 1)".toUTF8) := by
  have hfree : Files.empty.locate (Path.ofString "a.s") = .ok (.free ["a.s"]) := by
    rw [ofString_source]
    rfl
  exact Files.locate_set _ hfree rfl

theorem place?_source : oneSource.files.place? "a.s" = some ["a.s"] :=
  Files.place?_eq_some_iff.mpr ⟨by rw [ofString_source], _, locate_source, rfl⟩

theorem finds_source : Finds oneSource (some "a.s") (.ok "(:int 1)") oneSource := by
  have hread : oneSource.files.read "a.s" = .ok "(:int 1)" := by
    rw [Files.read, locate_source]
    simp [ofString_source, decodeUtf8_eq_ok_iff]
  have haccess := World.attempt_eq_ok_iff.mpr
    ⟨(rfl : oneSource.refusal (.read "a.s") = none), Host.read_eq_ok_iff.mpr hread⟩
  exact .file (Prod.ext haccess rfl)

/-- The file that is read is also the one that is written. -/
theorem built_over_its_source :
    World.view.Whole ∧
    ∃ after, (finish (.build (some "a.s") (some "a.s") "main") : StateM World Nat).run oneSource =
        (0, after) ∧ after.stdout = "" ∧
      after.files.get? ["a.s"] =
        some "package main\n\nfunc main() \x7b\n\t_ = 1\n\x7d\n".toUTF8 := by
  have hcompile : compile "main" "(:int 1)" =
      .ok "package main\n\nfunc main() \x7b\n\t_ = 1\n\x7d\n" :=
    Outcome.eq_ok_of_toOption (by decide +kernel)
  have hfails : ¬Fails oneSource (.build (some "a.s") (some "a.s") "main") := by
    intro hfails
    obtain ⟨error, after, hfailed⟩ := hfails.run
    have hrun := @run_of_result _ _ oneSource oneSource
      (.build (some "a.s") (some "a.s") "main") _ _ finds_source hcompile
    have hwritten := hrun.trans (World.writeFile_of_place rfl place?_source _)
    cases hwritten.symm.trans hfailed
  refine ⟨World.whole_view, ?_⟩
  obtain ⟨code, after, hrun, hcode, _, hdone⟩ := runs_are_all_or_nothing World.whole_view
    (.build (some "a.s") (some "a.s") "main") oneSource
  obtain ⟨rfl, source, hsource, hdelivers⟩ := hdone (mt hcode.mp hfails)
  cases hsource with
  | @file _ _ file hfile hcontent =>
    cases place?_source.symm.trans hfile
    obtain rfl : "(:int 1)" = source := toUTF8_injective (Option.some.inj hcontent)
    cases hdelivers with
    | written hwritten hreplaced =>
      cases hcompile.symm.trans hwritten
      obtain ⟨place, hplace, hplaced, -⟩ := hreplaced.content
      cases place?_source.symm.trans hplace
      exact ⟨after, hrun, hreplaced.stdout, hplaced⟩

end Command

end SexprCompiler
