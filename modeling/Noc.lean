import Noc.Lib.Bytes
import Noc.Lib.Spans
import Noc.Targets
import Noc.Memcpy
import Noc.Unistd
import Noc.Malloc.Defs
import Noc.Malloc.FreeList
import Noc.Malloc.Invariant
import Noc.Malloc.Moves
import Noc.Malloc.Grow
import Noc.Malloc.Alloc
import Noc.Malloc.Realloc
import Noc.Malloc.Run
import Noc.Malloc.Blocks
import Noc.Malloc.Limits
import Noc.Malloc.Calloc
import Noc.Lib.Bump
import Noc.Platform
import Noc.Lib.Division
import Noc.Support.Umoddiv
import Noc.Lib.Output
import Noc.Printf.Defs
import Noc.Printf.Digits
import Noc.Printf.Parse
import Noc.Printf.Convert
import Noc.Printf.Format
import Noc.Printf.Snprintf
import Noc.Printf.Stdout
import Noc.Printf.Run
import Noc.Printf.Args
import Noc.Printf.Append
import Noc.Printf.Syntax
import Noc.Printf.Types
import Noc.Printf.Numerals
import Noc.Printf.Fields
import Noc.Printf.Strings
import Noc.Strmem
import Noc.Malloc.DoubleFree
import Noc.Malloc.Atomic
import Noc.Malloc.Extend
import Noc.Malloc.Fit
import Noc.Malloc.Minimum
import Noc.Lib.Numeral
import Noc.Printf.Widths
import Noc.Printf.Padding
import Noc.Printf.Dump
import Noc.Atoi
import Noc.Lib.Text
import Noc.Strmem.Length
import Noc.Strmem.Compare
import Noc.Lib.Generator
import Noc.Rand
import Noc.Memcpy.Backward
import Noc.Lib.Cycle
import Noc.Lib.Objects
import Noc.Lib.Xor
import Noc.Malloc.Clients
import Noc.Malloc.Ledger
import Noc.Rand.Period
import Noc.Lib.Gf2
import Noc.Printf.Meaning
import Noc.Printf.Records
import Noc.Lib.Log
import Noc.Printf.Console
import Noc.Test.Pattern
import Noc.Lib.Growth
import Noc.Malloc.Owned
import Noc.Malloc.Costs
import Noc.Printf.Copies
import Noc.Printf.Pieces
import Noc.Malloc.Programs
import Noc.Malloc.Rounds
import Noc.Lib.Codes
import Noc.Printf.Tokens
import Noc.Printf.Accepted
