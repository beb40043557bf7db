import Plic.Cli

/-!
# What a command does to the files

A command reads the source and the credentials and compiles. Only then does it put the code into a
file, and only after that it runs it. So a command that gives up on its source has changed nothing,
and one that runs nothing has changed no file but the one that it was told to write.

Main results:

* `perform_keeps` — without a run, no file but the named one is changed.
* `perform_stores` — a command that succeeds without a run has put the code of its source there.
* `perform_gives_up` — a command that fails without a run has left all files as they were.
* `perform_runs` — with a run, the exit status and the files are those of the interpreter, which is
  started among files that differ from those before in the named one at most.
-/

namespace Plic

/-! ## Files by their names -/

namespace Machine

namespace Directory

/-- Replacing the files of a name, each at its place, replaces what is found under the name. -/
theorem lookup_replace (files : List (String × File)) (name other : String) (f : File) :
    (files.map fun e => if e.1 = name then (name, f) else e).lookup other =
      if other = name then (files.lookup name).map fun _ => f else files.lookup other := by
  induction files with
  | nil => simp
  | cons e files ih =>
    obtain ⟨key, g⟩ := e
    simp only [List.map_cons]
    -- the first file is found under its name before and after; any other name goes on to the rest
    by_cases hkey : key = name
    · subst hkey
      rw [if_pos rfl, List.lookup_cons, List.lookup_cons, List.lookup_cons, beq_self_eq_true]
      by_cases hother : other = key
      · simp [hother]
      · simpa [hother, beq_false_of_ne hother] using ih
    · rw [if_neg hkey, List.lookup_cons, List.lookup_cons, List.lookup_cons,
        beq_false_of_ne (Ne.symm hkey)]
      by_cases hother : other = key
      · simp [hother, hkey]
      · simpa [beq_false_of_ne hother] using ih

/-- Putting a file in a directory changes what is found under its name, and under no other. -/
theorem find?_insert (d : Directory) (name other : String) (f : File) :
    (d.insert name f).find? other = if other = name then some f else d.find? other := by
  unfold insert
  split
  -- a file that is there is replaced in its place, and a new one goes to the end
  · rename_i hthere
    obtain ⟨g, hg⟩ := Option.isSome_iff_exists.mp hthere
    unfold find? at hg ⊢
    rw [lookup_replace, hg]
    rfl
  · rename_i hnone
    rw [Option.not_isSome_iff_eq_none] at hnone
    unfold find? at hnone ⊢
    rw [List.lookup_append]
    by_cases hother : other = name
    · simp [hother, hnone]
    · simp [List.lookup_cons, beq_false_of_ne hother, hother]

end Directory

namespace Setting

variable {w : Setting} {path text : String} {t : Written}

/-- Reading does not touch the files, not even where it empties the input. -/
@[simp] theorem directory_afterRead (w : Setting) (path : String) :
    (w.afterRead path).directory = w.directory := by
  unfold afterRead
  split <;> rfl

/-- What is written to a path goes to the file at the path, as the bytes of the text. -/
theorem find?_write_file {name : String} (hwrite : w.write path text = .ok t)
    (hplace : w.directory.placeFrom .start path = .ok (.file name)) :
    (t.setting.directory.find? name).map File.bytes = some (Text.encode text) := by
  unfold write at hwrite
  rw [hplace] at hwrite
  obtain rfl := Except.ok.inj hwrite
  simp [Directory.overwrite, Directory.find?_insert]

/-- No other file is changed. What goes to a stream or a device changes none. -/
theorem find?_write_other {name : String} (hwrite : w.write path text = .ok t)
    (hplace : w.directory.placeFrom .start path ≠ .ok (.file name)) :
    t.setting.directory.find? name = w.directory.find? name := by
  unfold write at hwrite
  cases htarget : w.directory.placeFrom .start path with
  | error e =>
    rw [htarget] at hwrite
    cases hwrite
  | ok target =>
    rw [htarget] at hwrite
    cases target with
    | file found =>
      have hname : name ≠ found := by
        rintro rfl
        exact hplace htarget
      obtain rfl := Except.ok.inj hwrite
      simp [Directory.overwrite, Directory.find?_insert, hname]
    | folder _ | program _ | record _ => cases hwrite
    | device d =>
      cases d with
      -- `/dev/full` takes the empty text only, and then changes nothing either
      | full =>
        change (if text = "" then Except.ok _ else .error SystemError.noSpace) = .ok t at hwrite
        split at hwrite
        · obtain rfl := Except.ok.inj hwrite
          rfl
        · cases hwrite
      | terminal => cases hwrite
      | null | endless | input | output | errors =>
        obtain rfl := Except.ok.inj hwrite
        rfl

end Setting

end Machine

/-! ## Commands -/

namespace Cli

open Machine (Setting Directory)

variable {w : Setting} {o : Options} {name code : String}

/-- The options put the code into the file of this name. -/
def Options.StoresAt (o : Options) (d : Directory) (name : String) : Prop :=
  ∃ path, o.out = some path ∧ d.placeFrom .start path = .ok (.file name)

@[simp] theorem directory_afterReading (w : Setting) (o : Options) :
    (afterReading w o).directory = w.directory := by
  unfold afterReading
  cases o.credentials <;> simp

/-- Work goes on exactly if it did not fail. -/
theorem orGiveUp_eq_ok_iff {ε α : Type} {message : ε → String} {x : Except ε α} {a : α} :
    orGiveUp message x = .ok a ↔ x = .ok a := by
  cases x <;> simp [orGiveUp]

/-- Code is stored by writing it to the named path, if one is named. -/
theorem store_eq_ok_iff {t : Setting.Written} :
    store w o code = .ok t ↔
      (o.out = none ∧ t = { setting := w }) ∨
        ∃ path, o.out = some path ∧ w.write path code = .ok t := by
  unfold store
  cases o.out with
  | none => simp [eq_comm]
  | some path => simp [orGiveUp_eq_ok_iff]

/-- Storing the code changes no file but the named one. -/
theorem find?_store {t : Setting.Written} (hstore : store (afterReading w o) o code = .ok t)
    (hname : ¬ o.StoresAt w.directory name) :
    t.setting.directory.find? name = w.directory.find? name := by
  rw [← directory_afterReading w o] at hname ⊢
  rcases store_eq_ok_iff.mp hstore with ⟨-, rfl⟩ | ⟨path, hout, hwrite⟩
  · rfl
  · exact Setting.find?_write_other hwrite fun hplace => hname ⟨path, hout, hplace⟩

/-- The named file has the code in it once that is stored. -/
theorem find?_store_named {t : Setting.Written} (hstore : store (afterReading w o) o code = .ok t)
    (hname : o.StoresAt w.directory name) :
    (t.setting.directory.find? name).map (·.bytes) = some (Text.encode code) := by
  obtain ⟨path, hout, hplace⟩ := hname
  rw [← directory_afterReading w o] at hplace
  rcases store_eq_ok_iff.mp hstore with ⟨hnone, -⟩ | ⟨path', hout', hwrite⟩
  · rw [hnone] at hout
    cases hout
  · obtain rfl := Option.some.inj (hout.symm.trans hout')
    exact Setting.find?_write_file hwrite hplace

/-- How a command can go: it gives up on its source or on storing the code, having changed nothing,
or it has compiled and stored. -/
theorem perform_cases (w : Setting) (o : Options) :
    ((perform w o).exit = 1 ∧ (perform w o).directory = w.directory) ∨
      ∃ c t, compiled w o = .ok c ∧ store (afterReading w o) o c.code = .ok t ∧
        perform w o = if o.run then runCode t.setting o t.stdout (warnings c ++ t.stderr) c.code
          else ⟨0, if o.out.isSome then t.stdout else c.code, warnings c ++ t.stderr,
            t.setting.directory⟩ := by
  unfold perform
  cases compiled w o with
  -- nothing is written before the translation is known
  | error message => exact .inl ⟨rfl, rfl⟩
  | ok c =>
    cases hstore : store (afterReading w o) o c.code with
    | error message =>
      simp only [hstore]
      exact .inl ⟨rfl, rfl⟩
    | ok t =>
      refine .inr ⟨c, t, rfl, hstore, ?_⟩
      simp only [hstore]

/-- A command that runs nothing changes no file but the one that it was told to write. -/
theorem perform_keeps (hrun : o.run = false) (hname : ¬ o.StoresAt w.directory name) :
    (perform w o).directory.find? name = w.directory.find? name := by
  rcases perform_cases w o with ⟨-, hsame⟩ | ⟨c, t, -, hstore, hperform⟩
  · rw [hsame]
  · rw [hperform, if_neg (by simp [hrun])]
    exact find?_store hstore hname

/-- A command that runs nothing and succeeds has put the code of its source into the named file. -/
theorem perform_stores (hrun : o.run = false) (hexit : (perform w o).exit = 0)
    (hname : o.StoresAt w.directory name) :
    ∃ c, compiled w o = .ok c ∧
      ((perform w o).directory.find? name).map (·.bytes) = some (Text.encode c.code) := by
  rcases perform_cases w o with ⟨hone, -⟩ | ⟨c, t, hcompiled, hstore, hperform⟩
  · rw [hone] at hexit
    cases hexit
  · refine ⟨c, hcompiled, ?_⟩
    rw [hperform, if_neg (by simp [hrun])]
    exact find?_store_named hstore hname

/-- A command that runs nothing and fails has left all files as they were, and says so with the exit
status 1. -/
theorem perform_gives_up (hrun : o.run = false) (hexit : (perform w o).exit ≠ 0) :
    (perform w o).exit = 1 ∧ (perform w o).directory = w.directory := by
  rcases perform_cases w o with hgives | ⟨c, t, -, -, hperform⟩
  · exact hgives
  · rw [hperform, if_neg (by simp [hrun])] at hexit
    exact absurd rfl hexit

/-- A command with a run either fails with the exit status 1 or ends as the interpreter ends. The
interpreter is started on the code of the source, among files that are as before except for the
named one. -/
theorem perform_runs (hrun : o.run = true) :
    (perform w o).exit = 1 ∨
      ∃ c v e, compiled w o = .ok c ∧ Setting.execute v o.interpreter c.code = .ok e ∧
        (∀ name, ¬ o.StoresAt w.directory name →
          v.directory.find? name = w.directory.find? name) ∧
        (perform w o).exit = e.status ∧ (perform w o).directory = e.directory := by
  rcases perform_cases w o with ⟨hone, -⟩ | ⟨c, t, hcompiled, hstore, hperform⟩
  · exact .inl hone
  · rw [hperform, if_pos hrun, runCode]
    cases hexecute : t.setting.execute o.interpreter c.code with
    | error f => exact .inl rfl
    | ok e =>
      -- the program runs where storing its text is the only change so far
      exact .inr ⟨c, t.setting, e, hcompiled, hexecute, fun name => find?_store hstore, rfl, rfl⟩

end Cli

end Plic
