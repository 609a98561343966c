/-
# Maven commands

What `parse_maven_command` takes from the arguments of a recorded command, and what the commands
that are not Maven's look into.
-/
import MavenMcp.LogAnalysis.Events
import MavenMcp.LogAnalysis.Shell

namespace MavenMcp.LogAnalysis

open Text

/-! ## 1. Arguments -/

def lifecycle : List Str :=
  ["pre-clean", "clean", "post-clean", "validate", "initialize", "generate-sources",
    "process-sources", "generate-resources", "process-resources", "compile", "process-classes",
    "generate-test-sources", "process-test-sources", "generate-test-resources",
    "process-test-resources", "test-compile", "process-test-classes", "test", "prepare-package",
    "package", "pre-integration-test", "integration-test", "post-integration-test", "verify",
    "install", "deploy", "pre-site", "site", "post-site", "site-deploy"].map String.toList

def csv (value : Str) : List Str := (value.splitOn ',').filter (· ≠ [])

/-- The options whose argument says nothing of the build. -/
def ignoredOptions : List Str :=
  ["-s", "--settings", "-gs", "--global-settings", "-t", "--toolchains", "-gt",
    "--global-toolchains", "-T", "--threads", "-l", "--log-file", "-b", "--builder", "-emp",
    "--encrypt-master-password", "-ep", "--encrypt-password"].map String.toList

/-- The value of an option: the next word, or what is attached to the option. -/
def argument (token : Str) (next : Option Str) (short long : String) : Option Str :=
  if token = short.toList ∨ token = long.toList then next
  else
    ((stripPrefix (long.toList ++ ['=']) token).or
      ((stripPrefix short.toList token).filter (· ≠ []))).map (trimStartMatches (· = '='))

/-- The option takes the next word. -/
def takesNext (token : Str) : Bool :=
  token ∈ ["-pl", "--projects", "-rf", "--resume-from", "-P", "--activate-profiles", "-D",
    "--define", "-f", "--file"].map String.toList || token ∈ ignoredOptions

def define (value : Str) (maven : MavenCommand) : MavenCommand :=
  let (key, value) := (splitOnce '=' value).getD (value, "true".toList)
  { maven with
    tests := maven.tests ++
      if key = "test".toList ∨ key = "it.test".toList then csv value else []
    properties := insertEntry (key, value) maven.properties }

/-- One argument, and the word behind it. -/
def mavenArgument (token : Str) (next : Option Str) (maven : MavenCommand) : MavenCommand :=
  if token = "-am".toList ∨ token = "--also-make".toList then { maven with alsoMake := true }
  else if token = "-amd".toList ∨ token = "--also-make-dependents".toList then
    { maven with alsoMakeDependents := true }
  else if let some value := argument token next "-pl" "--projects" then
    { maven with modules := maven.modules ++ csv value }
  else if let some value := argument token next "-rf" "--resume-from" then
    { maven with resumeFrom := some value }
  else if let some value := argument token next "-P" "--activate-profiles" then
    { maven with profiles := maven.profiles ++ csv value }
  else if let some value := argument token next "-D" "--define" then define value maven
  else if token ∈ ["-ff", "-fae", "-fn"].map String.toList then
    -- the failure policy of the reactor is no attached `-f`
    maven
  else if let some value := argument token next "-f" "--file" then
    { maven with pomFile := some value }
  else if token ∈ ignoredOptions then maven
  else if token ∈ lifecycle then
    { maven with lifecycleGoals := maven.lifecycleGoals ++ [token] }
  else if token.head? ≠ some '-' ∧ ':' ∈ token ∧ '/' ∉ token ∧ '=' ∉ token then
    { maven with pluginGoals := maven.pluginGoals ++ [token] }
  else maven

/-- The loop; `skip` says that the word was the argument of the one before. -/
def mavenArguments : List Str → Bool → MavenCommand → MavenCommand
  | [], _, maven => maven
  | _ :: words, true, maven => mavenArguments words false maven
  | token :: words, false, maven =>
    mavenArguments words (takesNext token) (mavenArgument token words.head? maven)

def mavenExecutables : List Str :=
  ["mvn", "mvn.cmd", "mvnw", "mvnw.cmd", "mvnd", "mvnd.cmd"].map String.toList

def parseMavenCommand (command : Str) : Option MavenCommand :=
  let words := (invocations command).find? fun words =>
    decide (executableName (words.headD []) ∈ mavenExecutables)
  words.map fun words =>
    mavenArguments words.tail false
      { executable := executableName (words.headD []), lifecycleGoals := [], pluginGoals := []
        modules := [], alsoMake := false, alsoMakeDependents := false, resumeFrom := none
        pomFile := none, tests := [], profiles := [], properties := [] }

/-! ## 2. Other commands -/

def inspectors : List Str :=
  ["find", "jar", "unzip", "javap", "grep", "rg"].map String.toList

def repositoryCategory (command : Str) : CommandCategory :=
  let relevant := (invocations command).filter fun words =>
    executableName (words.headD []) ∈ inspectors
  let lower := [' '].intercalate (relevant.flatten.map toAsciiLowercase)
  let has := fun part : String => Text.contains part.toList lower
  let runs := fun name : String =>
    relevant.any fun words => executableName (words.headD []) = name.toList
  if relevant = [] then .shell
  else if runs "javap" || has ".class" then .classInspection
  else if has "pom.xml" || has ".pom" then .pomInspection
  else if has "meta-inf" || has "resources"
      || (has ".jar" && [".xml", ".properties", ".yaml", ".yml", ".json"].any has) then
    .resourceInspection
  else if has ".jar" || has ".m2" || runs "jar" || runs "unzip" then .jarInspection
  else .shell

example : parseMavenCommand "cd x && mvn -q -pl a,b -am -Dtest=T verify".toList
    = some { executable := "mvn".toList, lifecycleGoals := ["verify".toList], pluginGoals := []
             modules := [['a'], ['b']], alsoMake := true, alsoMakeDependents := false
             resumeFrom := none, pomFile := none, tests := [['T']], profiles := []
             properties := [("test".toList, ['T'])] } := by decide +kernel

end MavenMcp.LogAnalysis
