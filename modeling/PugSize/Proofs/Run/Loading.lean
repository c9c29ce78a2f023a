import PugSize.Proofs.Workspace.Follow
import PugSize.Settings

/-!
Loading settings. A run of the steps either writes nothing, or it succeeds and has written the settings
to the file of the user; so a failure leaves the files as they were. What has been written is read back
by the next run, which finds nothing left to complete.
-/

namespace PugSize.Settings

variable {format : Toml.Format} {t : FileTree} {home directory : Place} {root : String} {explicit : Option String}
  {result : Except SettingsError Settings} {written : FileTree.Writes} {s : Settings}

/-- The content of a file that settings are written to. -/
def bytes (format : Toml.Format) (s : Settings) : ByteArray := (String.ofList (s.textBy format)).toUTF8

/-- Whether the text of a file with settings is read as those settings. -/
def ReadsBack (format : Toml.Format) (s : Settings) : Prop :=
  (format.read? (s.textBy format)).bind ofEntries? = some s

set_option maxRecDepth 10000 in
/-- The settings that a new user gets can be read. -/
theorem default_readsBack : default.ReadsBack Toml.standard := by
  unfold ReadsBack
  cbv

theorem complete_default : default.complete = default := by
  have hroot : Text.isAllBlank default.imagesRoot = false := by decide +kernel
  have hrules : default.ruleEntries.isEmpty = false := rfl
  rw [complete, hroot, hrules, if_neg Bool.false_ne_true, if_neg Bool.false_ne_true]

/-- Nothing is left to complete in completed settings. -/
theorem complete_complete (s : Settings) : s.complete.complete = s.complete := by
  have hroot : Text.isAllBlank s.complete.imagesRoot = false := by
    by_cases h : Text.isAllBlank s.imagesRoot = true
    · have hdefault : s.complete.imagesRoot = default.imagesRoot := if_pos h
      rw [hdefault]
      decide +kernel
    · have hkept : s.complete.imagesRoot = s.imagesRoot := if_neg h
      rw [hkept]
      exact Bool.not_eq_true _ ▸ h
  have hrules : s.complete.ruleEntries.isEmpty = false := by
    by_cases h : s.ruleEntries.isEmpty = true
    · have hdefault : s.complete.ruleEntries = default.ruleEntries := if_pos h
      rw [hdefault]
      rfl
    · have hkept : s.complete.ruleEntries = s.ruleEntries := if_neg h
      rw [hkept]
      exact Bool.not_eq_true _ ▸ h
  rw [complete, hroot, hrules, if_neg Bool.false_ne_true, if_neg Bool.false_ne_true]

/-- What is read from a file is complete. -/
theorem complete_of_readBy? {content : Text} (h : readBy? format content = some s) : s.complete = s := by
  obtain ⟨entries, -, hentries⟩ := Option.bind_eq_some_iff.1 h
  obtain ⟨stated, -, rfl⟩ := Option.map_eq_some_iff.1 hentries
  exact complete_complete stated

theorem readBy?_textBy (h : s.ReadsBack format) (hcomplete : s.complete = s) :
    readBy? format (s.textBy format) = some s := by
  obtain ⟨entries, hentries, hstated⟩ := Option.bind_eq_some_iff.1 h
  rw [readBy?, hentries, Option.bind_some, hstated, Option.map_some, hcomplete]

theorem complete_of_ofTextBy {path content : String} (h : ofTextBy format path content = .ok s) :
    s.complete = s := by
  unfold ofTextBy at h
  split at h
  · rename_i hread
    cases h
    exact complete_of_readBy? hread
  · cases h

/-- What stands where settings are written: nothing that keeps them from the file of the user, and they
have nothing blank. -/
structure Stores (t : FileTree) (directory : Place) (s : Settings) : Prop where
  unobstructed : obstacle? t (userPlace directory).dropLast = none
  noDirectory : t.entry (userPlace directory) ≠ .directory
  complete : s.complete = s

/-- Settings that are read from the file of the user are written back unless the file has their text. -/
theorem ofUserBy_read {content : ByteArray} {present : String}
    (hobstacle : obstacle? t (userPlace directory).dropLast = none)
    (hentry : t.entry (userPlace directory) = .file content)
    (hpresent : String.fromUTF8? content = some present)
    (hread : ofTextBy format (Path.absolute (userPlace directory)) present = .ok s) :
    (ofUserBy format t directory).run [] =
      (.ok s, if String.ofList (s.textBy format) = present then []
        else [(userPlace directory, s.bytes format)]) := by
  have htaken : taken (.ok s) = pure s := rfl
  rw [ofUserBy]
  dsimp only
  rw [hobstacle, hentry]
  dsimp only
  rw [hpresent]
  dsimp only
  rw [hread, htaken, pure_bind]
  by_cases hsame : String.ofList (s.textBy format) = present
  · rw [if_neg (not_not_intro hsame), if_pos hsame]
    rfl
  · rw [if_pos hsame, if_neg hsame]
    rfl

/-- The steps for the file of the user write nothing, or they write the settings that they end with. -/
theorem ofUserBy_cases (h : (ofUserBy format t directory).run [] = (result, written)) :
    written = [] ∨ ∃ s, result = .ok s ∧ written = [(userPlace directory, s.bytes format)] ∧
      Stores t directory s := by
  have hrun := h
  unfold ofUserBy at h
  dsimp only at h
  split at h
  · cases h
    exact .inl rfl
  rename_i hobstacle
  have hnone := Option.eq_none_iff_forall_not_mem.2 hobstacle
  split at h
  · rename_i hentry
    cases h
    exact .inr ⟨default, rfl, rfl, hnone, by rw [hentry]; nofun, complete_default⟩
  · cases h
    exact .inl rfl
  rename_i content hentry
  split at h
  · cases h
    exact .inl rfl
  rename_i present hpresent
  cases hread : ofTextBy format (Path.absolute (userPlace directory)) present with
  | error e =>
      rw [hread] at h
      cases h
      exact .inl rfl
  | ok s =>
      obtain ⟨rfl, rfl⟩ := Prod.mk.inj ((ofUserBy_read hnone hentry hpresent hread).symm.trans hrun)
      split
      · exact .inl rfl
      · exact .inr ⟨s, rfl, rfl, hnone, by rw [hentry]; nofun, complete_of_ofTextBy hread⟩

/-- The steps of loading write nothing, or they write the settings that they end with to the file of the
user; they do so only if neither a file is named nor the workspace has one. -/
theorem stepsBy_cases (h : (stepsBy format t home root explicit directory).run [] = (result, written)) :
    written = [] ∨ ∃ s, result = .ok s ∧ written = [(userPlace directory, s.bytes format)] ∧
      Stores t directory s ∧ explicit = none ∧ t.isFile home (Path.join root workspaceFile) = false := by
  unfold stepsBy at h
  split at h
  · cases h
    exact .inl rfl
  dsimp only at h
  split at h
  · cases h
    exact .inl rfl
  · rename_i hnone
    obtain hnothing | ⟨s, hresult, hwritten, hstores⟩ := ofUserBy_cases h
    · exact .inl hnothing
    · exact .inr ⟨s, hresult, hwritten, hstores, rfl, Bool.not_eq_true _ ▸ hnone⟩

theorem obstacle?_eq_none {p : Place} : obstacle? t p = none ↔
    (∀ f ∈ t.files, ¬(f.1 <+: p ∧ f.1.length < p.length)) ∧ t.files.lookup p = none := by
  have hstrict (f : Place × ByteArray) : (f.1.isPrefixOf p && decide (f.1.length < p.length)) = true ↔
      f.1 <+: p ∧ f.1.length < p.length := by
    rw [Bool.and_eq_true, List.isPrefixOf_iff_prefix, decide_eq_true_iff]
  rw [obstacle?]
  split
  · rename_i hany
    obtain ⟨f, hf, hway⟩ := List.any_eq_true.1 hany
    exact iff_of_false (by simp) fun hnone => hnone.1 f hf ((hstrict f).1 hway)
  · rename_i hany
    have hfiles : ∀ f ∈ t.files, ¬(f.1 <+: p ∧ f.1.length < p.length) := fun f hf hway =>
      hany (List.any_eq_true.2 ⟨f, hf, (hstrict f).2 hway⟩)
    rw [and_iff_right hfiles]
    cases t.files.lookup p <;> simp

/-- The file of the user does not stand in the way of its own directory. -/
theorem obstacle?_write (h : obstacle? t (userPlace directory).dropLast = none) (content : ByteArray) :
    obstacle? (t.write (userPlace directory) content) (userPlace directory).dropLast = none := by
  obtain ⟨hway, hlookup⟩ := obstacle?_eq_none.1 h
  have hlength : (userPlace directory).dropLast.length < (userPlace directory).length := by
    have hnames : 0 < (Path.names userFile).length := by decide +kernel
    rw [List.length_dropLast, userPlace, List.length_append]
    omega
  refine obstacle?_eq_none.2 ⟨fun f hf => ?_, ?_⟩
  · obtain rfl | hf := List.mem_cons.1 hf
    · exact fun hstrict => Nat.lt_asymm hlength hstrict.2
    · exact hway f (List.mem_filter.1 hf).1
  · rw [FileTree.lookup_write, if_neg (fun heq => absurd (congrArg List.length heq) (by omega)), hlookup]

/-- Settings in the file of the user are taken from there, and nothing is written. -/
theorem ofUserBy_stored (hobstacle : obstacle? t (userPlace directory).dropLast = none)
    (hentry : t.entry (userPlace directory) = .file (s.bytes format)) (hread : s.ReadsBack format)
    (hcomplete : s.complete = s) : (ofUserBy format t directory).run [] = (.ok s, []) := by
  have hread : ofTextBy format (Path.absolute (userPlace directory)) (String.ofList (s.textBy format)) = .ok s := by
    rw [ofTextBy, String.toList_ofList, readBy?_textBy hread hcomplete]
  rw [ofUserBy_read hobstacle hentry (FileTree.fromUTF8?_toUTF8 _) hread, if_pos rfl]

/-- A file of the workspace that was not there is not there either when the file of the user is written,
unless the workspace itself was not there and is then. -/
theorem isFile_write {content : ByteArray}
    (hroot : (t.write (userPlace directory) content).Leads home root → t.Leads home root)
    (hdirectory : t.entry (userPlace directory) ≠ .directory)
    (hfile : t.isFile home (Path.join root workspaceFile) = false) :
    (t.write (userPlace directory) content).isFile home (Path.join root workspaceFile) = false := by
  have hname : Path.parts workspaceFile = [workspaceFile] := by decide +kernel
  have hplain : workspaceFile ∉ ["", ".", ".."] := by decide +kernel
  rw [Bool.eq_false_iff, Ne, FileTree.isFile_join_iff hname rfl hplain] at hfile ⊢
  rintro ⟨hpath, place', settings, hplace', hentry, hsettings⟩
  obtain ⟨place, hplace⟩ := hroot ⟨place', hplace'⟩
  have hfollow : (t.write (userPlace directory) content).follow (FileTree.start home root)
      (Path.parts root) = .ok place := FileTree.follow_write_of_ok hdirectory hplace
  obtain rfl := Except.ok.inj (hfollow.symm.trans hplace')
  have hother : place ++ [workspaceFile] ≠ userPlace directory := by
    intro heq
    have hlast := congrArg List.getLast? heq
    have huser : (Path.names userFile).getLast? = some "config.toml" := by decide +kernel
    rw [List.getLast?_concat, userPlace, List.getLast?_append, huser, Option.some_or] at hlast
    exact absurd (Option.some.inj hlast) (by decide +kernel)
  have hlookup := FileTree.entry_eq_file.1 hsettings
  rw [FileTree.lookup_write, if_neg hother] at hlookup
  have hnone := (FileTree.entry_eq_directory.1 hentry).1
  rw [FileTree.lookup_write] at hnone
  split at hnone
  · cases hnone
  · exact hfile ⟨hpath, place, settings, hplace,
      FileTree.entry_eq_directory.2 ⟨hnone, FileTree.isDirectory_of_lookup hlookup⟩,
      FileTree.entry_eq_file.2 hlookup⟩

theorem stepsBy_stored
    (hroot : (t.write (userPlace directory) (s.bytes format)).Leads home root → t.Leads home root)
    (hstores : Stores t directory s) (hread : s.ReadsBack format)
    (hfile : t.isFile home (Path.join root workspaceFile) = false) :
    (stepsBy format (t.write (userPlace directory) (s.bytes format)) home root none directory).run [] =
      (.ok s, []) := by
  rw [stepsBy, isFile_write hroot hstores.noDirectory hfile, if_neg Bool.false_ne_true]
  exact ofUserBy_stored (obstacle?_write hstores.unobstructed _) FileTree.entry_write_self hread
    hstores.complete

theorem loadBy_eq_ok {loaded : Loaded} : loadBy format t home root explicit directory = .ok loaded ↔
    (stepsBy format t home root explicit directory).run [] = (.ok loaded.settings, loaded.writes) := by
  rw [loadBy]
  cases (stepsBy format t home root explicit directory).run [] with
  | mk result written =>
      cases result with
      | error e => exact ⟨nofun, nofun⟩
      | ok s =>
          constructor
          · intro h
            cases h
            rfl
          · intro h
            obtain ⟨hs, rfl⟩ := Prod.mk.inj h
            rw [Except.ok.inj hs]
            rfl

/-- Loading settings, twice over, in any format. The steps change no file but that of the user, and it
only if neither a file is named nor the workspace has one; if they fail, they change nothing. If they
succeed, the text of the settings is read as those settings and the workspace does not come to be with the
file that is written, the same steps come to the same settings once more and change nothing. -/
theorem stepsBy_again (h : (stepsBy format t home root explicit directory).run [] = (result, written)) :
    (∀ p, (t.writeAll written).files.lookup p ≠ t.files.lookup p → p = userPlace directory ∧
      explicit = none ∧ t.isFile home (Path.join root workspaceFile) = false) ∧
    (∀ e, result = .error e → t.writeAll written = t) ∧
    ∀ s, result = .ok s → s.ReadsBack format →
      ((t.writeAll written).Leads home root → t.Leads home root) →
      (stepsBy format (t.writeAll written) home root explicit directory).run [] = (.ok s, []) := by
  obtain rfl | ⟨s, rfl, rfl, hstores, rfl, hfile⟩ := stepsBy_cases h
  · refine ⟨fun p hp => absurd rfl hp, fun e _ => rfl, ?_⟩
    rintro s rfl - -
    exact h
  · refine ⟨fun p hp => ⟨?_, rfl, hfile⟩, nofun, ?_⟩
    · exact Decidable.byContradiction fun hne => hp (FileTree.lookup_write.trans (if_neg hne))
    · rintro s' hs' hread hroot
      cases hs'
      exact stepsBy_stored hroot hstores hread hfile

/-- The file of a user who has left a setting blank. -/
def blankRoot : FileTree := ⟨[(["u", "mixsize", "config.toml"], "images_root = \" \"\n".toUTF8)], [["w"]]⟩

set_option maxRecDepth 10000 in
/-- The first run of the steps completes a blank setting. -/
theorem stepsBy_blankRoot : (stepsBy Toml.standard blankRoot [] "/w" none ["u"]).run [] =
    (.ok default, [(userPlace ["u"], default.bytes Toml.standard)]) := by
  have hplace : userPlace ["u"] = ["u", "mixsize", "config.toml"] := by decide +kernel
  have hfile : blankRoot.isFile [] (Path.join "/w" workspaceFile) = false := by decide +kernel
  have hobstacle : obstacle? blankRoot (userPlace ["u"]).dropLast = none := by decide +kernel
  have hentry : blankRoot.entry (userPlace ["u"]) = .file "images_root = \" \"\n".toUTF8 := by
    rw [FileTree.entry_eq_file, hplace, blankRoot, List.lookup_cons_self]
  have hsettings (path : String) : ofTextBy Toml.standard path "images_root = \" \"\n" = .ok default := by
    cbv
  have hother : String.ofList (default.textBy Toml.standard) ≠ "images_root = \" \"\n" := by
    decide +kernel
  rw [stepsBy, hfile, if_neg Bool.false_ne_true,
    ofUserBy_read hobstacle hentry (FileTree.fromUTF8?_toUTF8 _) (hsettings _), if_neg hother]

/-- Nothing is left for the second run of the steps. -/
theorem stepsBy_again_blank :
    (stepsBy Toml.standard blankRoot [] "/w" none ["u"]).run [] =
        (.ok default, [(userPlace ["u"], default.bytes Toml.standard)]) ∧
      default.ReadsBack Toml.standard ∧ blankRoot.Leads [] "/w" ∧
      (stepsBy Toml.standard
        (blankRoot.writeAll [(userPlace ["u"], default.bytes Toml.standard)]) [] "/w" none ["u"]).run [] =
          (.ok default, []) := by
  have hleads : blankRoot.Leads [] "/w" := ⟨["w"], by cbv⟩
  exact ⟨stepsBy_blankRoot, default_readsBack, hleads,
    (stepsBy_again stepsBy_blankRoot).2.2 default rfl default_readsBack fun _ => hleads⟩

end PugSize.Settings
