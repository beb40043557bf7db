import Plic.Credentials
import Plic.Python.Literal

/-!
# Support code

The functions that generated code calls, in four groups. Only the groups that a program needs are
written in front of it.
-/

namespace Plic.Python

/-- The groups of functions that a program needs. -/
structure Helpers where
  /-- Any value as a string. -/
  text : Bool := false
  /-- Input for a variable. -/
  get : Bool := false
  files : Bool := false
  /-- Queries. -/
  sql : Bool := false
deriving DecidableEq

namespace Helpers

/-- No group. -/
def none : Helpers := {}

/-- The groups of either. -/
def union (a b : Helpers) : Helpers :=
  ⟨a.text || b.text, a.get || b.get, a.files || b.files, a.sql || b.sql⟩

def imports (h : Helpers) (embedded : Bool) : List String :=
  (if h.get then ["import re"] else [])
    ++ (if h.sql && !embedded then ["import os"] else [])
    ++ (if h.files || h.sql then ["import sys"] else [])

end Helpers

def textSupport : String :=
  Text.unlines [
    "def _pli_str(value):",
    "    return '' if value is None else str(value)"]

/-- The text of the group for input. -/
def getSupport : String :=
  Text.unlines [
    "def _pli_get(name):",
    "    try:",
    "        text = input('Enter ' + name + ': ')",
    "    except EOFError:",
    "        return None",
    "    if re.fullmatch('[+-]?[0-9]+', text):",
    "        return int(text)",
    "    return text"]

/-- The text of the group for files. -/
def fileSupport : String :=
  Text.unlines [
    "_pli_files = \x7b\x7d",
    "_pli_eof = \x7b\x7d",
    "",
    "",
    "def _pli_file_error(name, message):",
    "    print('FILE ERROR: ' + name + ': ' + str(message), file=sys.stderr)",
    "",
    "",
    "def _pli_open(name, mode):",
    "    try:",
    "        _pli_files[name] = open(name + '.txt', mode)",
    "        _pli_eof[name] = False",
    "    except OSError as err:",
    "        _pli_eof[name] = True",
    "        _pli_file_error(name, err)",
    "",
    "",
    "def _pli_read(name):",
    "    handle = _pli_files.get(name)",
    "    if handle is None:",
    "        _pli_eof[name] = True",
    "        _pli_file_error(name, 'file is not open')",
    "        return None",
    "    try:",
    "        line = handle.readline()",
    "    except (OSError, ValueError) as err:",
    "        _pli_eof[name] = True",
    "        _pli_file_error(name, err)",
    "        return None",
    "    if line == '':",
    "        _pli_eof[name] = True",
    "        return None",
    "    return line.rstrip('\\r\\n')",
    "",
    "",
    "def _pli_write(name, value):",
    "    handle = _pli_files.get(name)",
    "    if handle is None:",
    "        _pli_file_error(name, 'file is not open')",
    "        return",
    "    try:",
    "        handle.write(str(value) + '\\n')",
    "    except (OSError, ValueError) as err:",
    "        _pli_file_error(name, err)",
    "",
    "",
    "def _pli_close(name):",
    "    handle = _pli_files.pop(name, None)",
    "    if handle is None:",
    "        _pli_file_error(name, 'file is not open')",
    "        return",
    "    try:",
    "        handle.close()",
    "    except OSError as err:",
    "        _pli_file_error(name, err)",
    "",
    "",
    "def _pli_endfile(name):",
    "    return 1 if _pli_eof.get(name, False) else 0"]

/-- The text of the group for queries, without the table of the connection. -/
def sqlSupport : String :=
  Text.unlines [
    "def _pli_sql(query):",
    "    try:",
    "        import mysql.connector",
    "    except ImportError:",
    "        print('SQL ERROR: mysql.connector is not installed', file=sys.stderr)",
    "        return None",
    "    connection = None",
    "    try:",
    "        connection = mysql.connector.connect(**_PLI_DB)",
    "        cursor = connection.cursor()",
    "        cursor.execute(query)",
    "        row = cursor.fetchone()",
    "        cursor.close()",
    "        return row[0] if row else None",
    "    except mysql.connector.Error as err:",
    "        print('SQL ERROR: SQLCODE=' + str(err.errno) + ' SQLSTATE=' + str(err.sqlstate)",
    "              + ' MESSAGE=' + str(err.msg), file=sys.stderr)",
    "        return None",
    "    finally:",
    "        if connection is not None:",
    "            connection.close()"]

/-- What the table of the connection holds for a part of the credentials: the part itself when there
are credentials, else a question to the environment of the running program. -/
def connectionValue (credentials : Option Credentials) (key : Credentials.Key) : String :=
  match credentials, key with
  | some c, .host => quote c.host
  | some c, .user => quote c.user
  | some c, .password => quote c.password
  | some c, .database => quote c.database
  | none, key => "os.environ.get('" ++ key.variableName ++ "', '')"

def connectionTable (credentials : Option Credentials) : String :=
  "_PLI_DB = \x7b\n"
    ++ String.join (Credentials.Key.all.map fun k =>
        "    '" ++ k.name ++ "': " ++ connectionValue credentials k ++ ",\n")
    ++ "\x7d\n"

def supportSections (h : Helpers) (credentials : Option Credentials) : List String :=
  (match h.imports credentials.isSome with
    | [] => []
    | imports => [Text.unlines imports])
    ++ (if h.text then [textSupport] else [])
    ++ (if h.get then [getSupport] else [])
    ++ (if h.files then [fileSupport] else [])
    ++ (if h.sql then [connectionTable credentials, sqlSupport] else [])

/-- The support code for some groups; two blank lines stand between its sections. -/
def supportCode (h : Helpers) (credentials : Option Credentials) : String :=
  "\n\n".intercalate (supportSections h credentials)

end Plic.Python
